import NetKernel.Sched.Assembly

/-! Into the kernel and out of it: page faults, the timer and system calls give the program
they came from its registers back. -/
namespace NetKernel.Assembly
open StackCode Function

variable {s : Core} {ctx : Reg → Nat} {body : Core → Core} {saved : List Reg}
  {args : List (Instr Reg)}

/-! A handler: registers are pushed, arguments set, C++ code called and the registers popped. -/

/-- Argument registers are set without the stack. -/
structure SetsArguments (args : List (Instr Reg)) : Prop where
  rsp : ∀ s, (exec args s).reg .rsp = s.reg .rsp
  mem : ∀ s, (exec args s).mem = s.mem

theorem exec_pushes (s : Core) (saved : List Reg) (hsp : .rsp ∉ saved)
    (hroom : 8*saved.length ≤ s.reg .rsp) :
    (exec (saved.map .push) s).reg .rsp = s.reg .rsp-8*saved.length ∧
      ∀ r ≠ .rsp, (exec (saved.map .push) s).reg r = s.reg r := by
  obtain ⟨hreg,-,-⟩ := run_pushes .rsp s saved hroom hsp
  exact ⟨by rw [exec, hreg, update_self], fun r hr => by rw [exec, hreg, update_of_ne hr]⟩

theorem exec_enter (s : Core) (saved : List Reg) (hargs : SetsArguments args) (hsp : .rsp ∉ saved)
    (hroom : 8*saved.length ≤ s.reg .rsp) :
    let s' := exec (saved.map .push ++ args) s
    s'.reg .rsp = s.reg .rsp-8*saved.length ∧
      Lies s'.mem s.reg (s.reg .rsp-8*saved.length) saved.reverse ∧
      ∀ a, s.reg .rsp ≤ a → s'.mem a = s.mem a := by
  obtain ⟨hreg,hlies,hrest⟩ := run_pushes .rsp s saved hroom hsp
  rw [exec_append]
  dsimp only
  rw [hargs.rsp, hargs.mem]
  exact ⟨by rw [exec, hreg, update_self], hlies, fun a ha => hrest a (.inr ha)⟩

/-- What the processor pushes for a trap, from `rip` up. -/
def trapFrame : List Reg := [.rip, .cs, .rflags, .rsp, .ss]

/-- Once the registers are back, so is the frame of the trap; `k` bytes lie between them. -/
theorem exec_saved (saved : List Reg) (k : Nat) (hargs : SetsArguments args) (hn : saved.Nodup)
    (hsp : .rsp ∉ saved) (hroom : 8*saved.length ≤ s.reg .rsp)
    (hbody : Respects .rsp (8*saved.length+(k+40)) body)
    (htrap : Lies s.mem ctx (s.reg .rsp+k) trapFrame) :
    let s' := exec (saved.reverse.map .pop) (body (exec (saved.map .push ++ args) s))
    (∀ r ∈ saved, s'.reg r = s.reg r) ∧ s'.reg .rsp = s.reg .rsp ∧
      Lies s'.mem ctx (s.reg .rsp+k) trapFrame := by
  have hbody' : Respects .rsp (8*saved.length+(k+40)) fun s => body (exec args s) := fun s => by
    have h := hbody (exec args s)
    rw [hargs.rsp, hargs.mem] at h
    exact h
  obtain ⟨hrsp,hreg,hmem⟩ := run_around .rsp s saved hn hsp hroom hbody'
  rw [exec_append]
  refine ⟨hreg, hrsp, htrap.congr (fun a ha ha' => hmem a (by omega) ?_) fun _ _ => rfl⟩
  have hlen : 8*trapFrame.length = 40 := rfl
  omega

/-! Traps. -/

def iretq : List (Instr Reg) :=
  [.pop .rip, .pop .cs, .pop .rflags, .load .ss .rsp 8, .load .rsp .rsp 0]

theorem exec_iretq (h : Lies s.mem ctx (s.reg .rsp) trapFrame) :
    (∀ r ∈ trapFrame, (exec iretq s).reg r = ctx r) ∧
      ∀ r ∉ trapFrame, (exec iretq s).reg r = s.reg r := by
  obtain ⟨hrip,hcs,hflags,hrsp,hss,-⟩ := h
  constructor
  · simp [exec, iretq, trapFrame, run, step, Cpu.set, ← hrip, ← hcs, ← hflags, ← hrsp, ← hss,
      Nat.add_assoc]
  · simp +contextual [exec, iretq, trapFrame, run, step, Cpu.set]

/-- The registers a trap saves itself. -/
def general : List Reg :=
  [.rax, .rbx, .rcx, .rdx, .rsi, .rdi, .rbp, .r8, .r9, .r10, .r11, .r12, .r13, .r14, .r15]

/-- The pushes of `pageFaultHandler_`; its pops are the same registers backwards. -/
def pageFaultSaved : List Reg :=
  [.r15, .r14, .r13, .r12, .r11, .r10, .r9, .r8, .rbp, .rsi, .rdi, .rdx, .rcx, .rbx, .rax]

/-- The arguments of `pageFaultHandler`. -/
def pageFaultArguments : List (Instr Reg) := [.mov .rdi .cr2, .mov .rsi .rsp]

/-- `pageFaultHandler_` up to the call. -/
def pageFaultEnter : List (Instr Reg) := pageFaultSaved.map .push ++ pageFaultArguments

/-- The rest of `pageFaultHandler_`: the error code is dropped. -/
def pageFaultLeave : List (Instr Reg) :=
  pageFaultSaved.reverse.map .pop ++ ([.add .rsp 8] ++ iretq)

/-- The pushes of `apitHandler_`; its pops are the same registers backwards. -/
def apitSaved : List Reg :=
  [.rax, .rbx, .rcx, .rdx, .rsi, .rdi, .rbp, .r8, .r9, .r10, .r11, .r12, .r13, .r14, .r15]

def apitArguments : List (Instr Reg) := [.mov .rdi .rsp]

/-- `apitHandler_` up to the call of `apitHandler`. -/
def apitEnter : List (Instr Reg) := apitSaved.map .push ++ apitArguments

def apitLeave : List (Instr Reg) := apitSaved.reverse.map .pop ++ iretq

/-- The fields of `PageFaultTrapFrame` before `error_code`. -/
def pageFaultFields : List Reg :=
  [.rax, .rbx, .rcx, .rdx, .rdi, .rsi, .rbp, .r8, .r9, .r10, .r11, .r12, .r13, .r14, .r15]

structure PageFaultOk (body : Core → Core) (ctx : Reg → Nat) (s : Core) : Prop where
  cr2 : (exec pageFaultEnter s).reg .rdi = s.reg .cr2
  /-- `pageFaultHandler` gets the frame its structure describes. -/
  fields : Lies (exec pageFaultEnter s).mem ctx ((exec pageFaultEnter s).reg .rsi) pageFaultFields
  trap : Lies (exec pageFaultEnter s).mem ctx ((exec pageFaultEnter s).reg .rsi+128) trapFrame
  returns : ∀ r ∈ general ++ trapFrame,
    (exec pageFaultLeave (body (exec pageFaultEnter s))).reg r = ctx r

/-- What the timer promises; the fields of `ApitInterruptFrame` from `rip` on lie at `rdi+120`. -/
structure ApitOk (body : Core → Core) (ctx : Reg → Nat) (s : Core) : Prop where
  trap : Lies (exec apitEnter s).mem ctx ((exec apitEnter s).reg .rdi+120) trapFrame
  returns : ∀ r ∈ general ++ trapFrame, (exec apitLeave (body (exec apitEnter s))).reg r = ctx r

theorem exec_pageFaultArguments (s : Core) :
    (exec pageFaultArguments s).reg .rdi = s.reg .cr2 ∧
      (exec pageFaultArguments s).reg .rsi = s.reg .rsp := by
  simp [pageFaultArguments, exec, run, step, Cpu.set]

theorem setsArguments_pageFault : SetsArguments pageFaultArguments :=
  ⟨fun s => by simp [pageFaultArguments, exec, run, step, Cpu.set],
    fun s => by simp [pageFaultArguments, exec, run, step, Cpu.set]⟩

theorem exec_apitArguments (s : Core) : (exec apitArguments s).reg .rdi = s.reg .rsp := by
  simp [apitArguments, exec, run, step, Cpu.set]

theorem setsArguments_apit : SetsArguments apitArguments :=
  ⟨fun s => by simp [apitArguments, exec, run, step, Cpu.set],
    fun s => by simp [apitArguments, exec, run, step, Cpu.set]⟩

theorem exec_drop (s : Core) : (exec [.add .rsp 8] s).reg .rsp = s.reg .rsp+8 ∧
    (exec [.add .rsp 8] s).mem = s.mem ∧ ∀ r ≠ .rsp, (exec [.add .rsp 8] s).reg r = s.reg r := by
  simp +contextual [exec, run, step, Cpu.set]

theorem mem_general : (∀ r ∈ general, r ∈ pageFaultSaved ∧ r ∈ apitSaved) ∧
    (∀ r ∈ pageFaultSaved, r ∈ general) ∧ (∀ r ∈ apitSaved, r ∈ general) ∧
    ∀ r ∈ general, r ∉ trapFrame ∧ r ≠ .rsp := by
  decide

theorem exec_iretq_general (hgeneral : ∀ r ∈ general, s.reg r = ctx r)
    (htrap : Lies s.mem ctx (s.reg .rsp) trapFrame) :
    ∀ r ∈ general ++ trapFrame, (exec iretq s).reg r = ctx r := by
  obtain ⟨hframe,hother⟩ := exec_iretq htrap
  intro r hr
  obtain hr | hr := List.mem_append.mp hr
  · rw [hother r (mem_general.2.2.2 r hr).1, hgeneral r hr]
  · exact hframe r hr

/-- The state the processor leaves when it traps out of a program with registers `ctx`; with an
error code `k` is 8. -/
structure Trapped (ctx : Reg → Nat) (k : Nat) (s : Core) : Prop where
  general : ∀ r ∈ general, s.reg r = ctx r
  frame : Lies s.mem ctx (s.reg .rsp+k) trapFrame
  room : 120 ≤ s.reg .rsp

theorem page_fault_returns (h : Trapped ctx 8 s) (hbody : Respects .rsp 168 body) :
    PageFaultOk body ctx s := by
  obtain ⟨hgeneral,htrap,hroom⟩ := h
  obtain ⟨hall,hin,-,hne⟩ := mem_general
  have hlen : 8*pageFaultSaved.length = 120 := rfl
  have hfields : pageFaultSaved.reverse = pageFaultFields := rfl
  obtain ⟨-,hlies,hmem⟩ := exec_enter s pageFaultSaved setsArguments_pageFault (by decide) hroom
  obtain ⟨hback,hrsp',htrap'⟩ := exec_saved pageFaultSaved 8 setsArguments_pageFault (by decide)
    (by decide) hroom hbody htrap
  obtain ⟨hrsp,hreg⟩ := exec_pushes s pageFaultSaved (by decide) hroom
  obtain ⟨hrdi,hrsi⟩ := exec_pageFaultArguments (exec (pageFaultSaved.map .push) s)
  rw [← exec_append, ← pageFaultEnter] at hrdi hrsi
  rw [← pageFaultEnter] at hlies hmem hback hrsp' htrap'
  rw [hrsp, hlen] at hrsi
  rw [hfields, hlen] at hlies
  refine ⟨hrdi.trans (hreg .cr2 (by decide)), ?_, ?_, ?_⟩
  · rw [hrsi]
    exact hlies.congr (fun _ _ _ => rfl) fun r hr =>
      (hgeneral r (hin r (List.mem_reverse.mp (hfields ▸ hr)))).symm
  · rw [hrsi, show s.reg .rsp-120+128 = s.reg .rsp+8 by omega]
    exact htrap.congr (fun a ha _ => hmem a (by omega)) fun _ _ => rfl
  · rw [pageFaultLeave, exec_append, exec_append]
    generalize exec (pageFaultSaved.reverse.map .pop) (body (exec pageFaultEnter s)) = s₁
      at hback hrsp' htrap' ⊢
    obtain ⟨htop,hsame,hother⟩ := exec_drop s₁
    refine exec_iretq_general (fun r hr => ?_) ?_
    · rw [hother r (hne r hr).2, hback r (hall r hr).1, hgeneral r hr]
    · rw [htop, hsame, hrsp']
      exact htrap'

theorem apit_returns (h : Trapped ctx 0 s) (hbody : Respects .rsp 160 body) :
    ApitOk body ctx s := by
  obtain ⟨hgeneral,htrap,hroom⟩ := h
  obtain ⟨hall,-,-,-⟩ := mem_general
  have hlen : 8*apitSaved.length = 120 := rfl
  obtain ⟨-,-,hmem⟩ := exec_enter s apitSaved setsArguments_apit (by decide) hroom
  obtain ⟨hback,hrsp',htrap'⟩ := exec_saved apitSaved 0 setsArguments_apit (by decide)
    (by decide) hroom hbody htrap
  obtain ⟨hrsp,-⟩ := exec_pushes s apitSaved (by decide) hroom
  have hrdi := exec_apitArguments (exec (apitSaved.map .push) s)
  rw [← exec_append, ← apitEnter, hrsp, hlen] at hrdi
  rw [← apitEnter] at hmem hback hrsp' htrap'
  refine ⟨?_, ?_⟩
  · rw [hrdi, Nat.sub_add_cancel hroom]
    exact htrap.congr (fun a ha _ => hmem a ha) fun _ _ => rfl
  · rw [apitLeave, exec_append]
    generalize exec (apitSaved.reverse.map .pop) (body (exec apitEnter s)) = s₁
      at hback hrsp' htrap' ⊢
    refine exec_iretq_general (fun r hr => ?_) ?_
    · rw [hback r (hall r hr).2, hgeneral r hr]
    · rw [hrsp']
      exact htrap'

/-- A page fault and a timer interrupt give the program they stopped every register back, its
flags, code and stack pointers included, whatever the handler does to registers and to memory
below its caller's stack pointer. -/
theorem traps_return (ctx : Reg → Nat) (s t : Core) (body : Core → Core) (hs : Trapped ctx 8 s)
    (ht : Trapped ctx 0 t) (hbody : Respects .rsp 168 body) :
    PageFaultOk body ctx s ∧ ApitOk body ctx t :=
  ⟨page_fault_returns hs hbody, apit_returns ht fun s =>
    ⟨(hbody s).1, fun a ha ha' => (hbody s).2 a ha (by omega)⟩⟩

/-- A program whose frame lies at 4104, with another value in each register. -/
def interrupted : Reg → Nat
  | .rip => 4104
  | .cs => 4112
  | .rflags => 4120
  | .rsp => 4128
  | .ss => 4136
  | r => general.idxOf r

/-- A call that returns 7 and spoils every register but the stack pointer. -/
def spoil (s : Core) : Core := { s with reg := update (fun _ => 7) .rsp (s.reg .rsp) }

theorem respects_spoil (n : Nat) : Respects .rsp n spoil := fun s =>
  ⟨by simp [spoil], fun _ _ _ => rfl⟩

theorem traps_return_spoilt :
    PageFaultOk spoil interrupted ⟨update interrupted .rsp 4096, id⟩ ∧
      ApitOk spoil interrupted ⟨update interrupted .rsp 4104, id⟩ :=
  traps_return interrupted _ _ spoil ⟨by decide, by simp [Lies, trapFrame, interrupted], by decide⟩
    ⟨by decide, by simp [Lies, trapFrame, interrupted], by decide⟩ (respects_spoil _)

/-! System calls. -/

/-- `syscall` with the mask of `I32_FMASK`. -/
def syscall : List (Instr Reg) :=
  [.mov .rcx .rip, .mov .r11 .rflags, .clear .rflags interruptFlag]

def sysret : List (Instr Reg) := [.mov .rip .rcx, .mov .rflags .r11]

/-- Offsets in `PerCore`: the kernel stack of the running thread and two cells of scratch. -/
abbrev tssRsp0 : Nat := 44

abbrev tssRsp1 : Nat := 52

abbrev tssRsp2 : Nat := 60

/-- The stack is switched; `rax` holds the program's stack pointer. -/
def syscallStack : List (Instr Reg) :=
  [.store .gs tssRsp2 .rax, .store .gs tssRsp1 .rsp, .load .rsp .gs tssRsp0,
    .load .rax .gs tssRsp1]

def syscallSaved : List Reg :=
  [.rax, .r15, .r14, .r13, .r12, .r11, .r10, .r9, .r8, .rbp, .rdi, .rsi, .rdx, .rcx, .rbx]

def syscallArguments : List (Instr Reg) := [.load .rax .gs tssRsp2, .push .rax, .mov .rdi .rsp]

/-- `syscallHandler_` up to the call of `syscallHandler`. -/
def syscallEnter : List (Instr Reg) :=
  syscallStack ++ (syscallSaved.map .push ++ syscallArguments)

/-- The fields of `SyscallFrame` after `rax` and before `user_rsp`. -/
def syscallKept : List Reg :=
  [.rbx, .rcx, .rdx, .rsi, .rdi, .rbp, .r8, .r9, .r10, .r11, .r12, .r13, .r14, .r15]

def syscallFrame : List Reg := .rax :: syscallKept ++ [.rsp]

def resumeSyscall : List (Instr Reg) :=
  [.mov .rsp .rdi] ++ ((.rax :: syscallKept).map .pop ++ ([.load .rsp .rsp 0] ++ sysret))

/-- The rest of `syscallHandler_`. -/
def syscallLeave : List (Instr Reg) := [.store .rsp 0 .rax, .mov .rdi .rsp] ++ resumeSyscall

/-- The registers of the program once `syscall` has run. -/
def called (s : Core) : Reg → Nat := update (update s.reg .rcx (s.reg .rip)) .r11 (s.reg .rflags)

/-- The state in which `syscallHandler` starts. -/
def entered (s : Core) : Core := exec syscallEnter (exec syscall s)

/-- The registers a program goes on with whose call returned `x`. -/
def answered (s : Core) (x : Nat) : Reg → Nat := update (called s) .rax x

/-- A program goes on behind its call, with its own flags and stack. -/
structure Answered (s : Core) (x : Nat) (s' : Core) : Prop where
  kept : ∀ r ∈ syscallFrame, s'.reg r = answered s x r
  rip : s'.reg .rip = s.reg .rip
  rflags : s'.reg .rflags = s.reg .rflags

theorem exec_syscall (s : Core) : (exec syscall s).mem = s.mem ∧
    ∀ r ≠ .rflags, (exec syscall s).reg r = called s r := by
  refine ⟨rfl, fun r hr => ?_⟩
  change update _ Reg.rflags _ r = _
  exact update_of_ne hr _ _

theorem exec_syscallStack (s : Core) : (exec syscallStack s).mem =
      update (update s.mem (s.reg .gs+tssRsp2) (s.reg .rax)) (s.reg .gs+tssRsp1) (s.reg .rsp) ∧
    (exec syscallStack s).reg .rsp = s.mem (s.reg .gs+tssRsp0) ∧
    (exec syscallStack s).reg .rax = s.reg .rsp ∧
    ∀ r, r ≠ .rax → r ≠ .rsp → (exec syscallStack s).reg r = s.reg r := by
  simp +contextual [syscallStack, exec, run, step, Cpu.set, Cpu.write, tssRsp0, tssRsp1, tssRsp2]

theorem exec_syscallArguments (s : Core) : (exec syscallArguments s).mem =
      update s.mem (s.reg .rsp-8) (s.mem (s.reg .gs+tssRsp2)) ∧
    (exec syscallArguments s).reg .rsp = s.reg .rsp-8 ∧
    (exec syscallArguments s).reg .rdi = s.reg .rsp-8 := by
  simp [syscallArguments, exec, run, step, Cpu.set, Cpu.write]

theorem exec_sysret (s : Core) : (exec sysret s).reg .rip = s.reg .rcx ∧
    (exec sysret s).reg .rflags = s.reg .r11 ∧
    ∀ r, r ≠ .rip → r ≠ .rflags → (exec sysret s).reg r = s.reg r := by
  simp +contextual [sysret, exec, run, step, Cpu.set]

theorem syscallKept_ne : syscallKept.Nodup ∧ ∀ r ∈ syscallKept,
    r ≠ .rax ∧ r ≠ .rsp ∧ r ≠ .rip ∧ r ≠ .rflags ∧ r ≠ .gs := by
  decide

/-- What `syscallHandler` gets: the registers of the program as `SyscallFrame` names them. -/
theorem entered_frame {k : Nat} (hk : s.mem (s.reg .gs+tssRsp0) = k) (hroom : 128 ≤ k)
    (hgs : s.reg .gs+68 ≤ k-128 ∨ k ≤ s.reg .gs+tssRsp0) :
    (entered s).reg .rdi = k-128 ∧ (entered s).reg .rsp = k-128 ∧
      Lies (entered s).mem (called s) (k-128) syscallFrame := by
  obtain ⟨-,hne⟩ := syscallKept_ne
  have h0 : tssRsp0 = 44 := rfl
  have h1 : tssRsp1 = 52 := rfl
  have h2 : tssRsp2 = 60 := rfl
  obtain ⟨hmem₀,hreg₀⟩ := exec_syscall s
  rw [entered, syscallEnter, exec_append, exec_append]
  obtain ⟨hmem₁,hrsp₁,hrax₁,hother₁⟩ := exec_syscallStack (exec syscall s)
  have hgs₀ : (exec syscall s).reg .gs = s.reg .gs := hreg₀ .gs (by decide)
  have huser : (exec syscall s).reg .rsp = s.reg .rsp := hreg₀ .rsp (by decide)
  have hrax₀ : (exec syscall s).reg .rax = s.reg .rax := hreg₀ .rax (by decide)
  rw [hmem₀, hgs₀, huser, hrax₀] at hmem₁
  rw [hmem₀, hgs₀, hk] at hrsp₁
  rw [huser] at hrax₁
  generalize exec syscallStack (exec syscall s) = s₁ at hmem₁ hrsp₁ hrax₁ hother₁ ⊢
  have hlen : 8*syscallSaved.length = 120 := rfl
  have hroom₁ : 8*syscallSaved.length ≤ s₁.reg .rsp := by omega
  obtain ⟨-,hlies,hrest⟩ := run_pushes .rsp s₁ syscallSaved hroom₁ (by decide)
  obtain ⟨hrsp₂,hreg₂⟩ := exec_pushes s₁ syscallSaved (by decide) hroom₁
  rw [hrsp₁, hlen] at hlies hrest hrsp₂
  rw [← exec] at hlies hrest
  generalize exec (syscallSaved.map .push) s₁ = s₂ at hlies hrest hrsp₂ hreg₂ ⊢
  obtain ⟨hmem₃,hrsp₃,hrdi₃⟩ := exec_syscallArguments s₂
  have hgs₂ : s₂.reg .gs = s.reg .gs := by
    rw [hreg₂ .gs (by decide), hother₁ .gs (by decide) (by decide), hgs₀]
  have hrax : s₂.mem (s₂.reg .gs+tssRsp2) = s.reg .rax := by
    rw [hgs₂, hrest _ (by omega), hmem₁, update_of_ne (by omega), update_self]
  rw [hrax, hrsp₂, Nat.sub_sub] at hmem₃
  rw [hrsp₂, Nat.sub_sub] at hrsp₃ hrdi₃
  have hsplit : syscallSaved.reverse = syscallKept ++ [.rax] := rfl
  rw [hsplit, Lies.append] at hlies
  obtain ⟨hkept,hlast,-⟩ := hlies
  have hlen' : 8*syscallKept.length = 112 := rfl
  have hsame (a : Nat) (ha : k-120 ≤ a) : (exec syscallArguments s₂).mem a = s₂.mem a := by
    rw [hmem₃, update_of_ne (by omega)]
  refine ⟨hrdi₃, hrsp₃, ?_, ?_⟩
  · rw [hmem₃, update_self]
    exact hrax₀.symm
  · rw [show k-128+8 = k-120 by omega]
    refine Lies.append.mpr ⟨hkept.congr (fun a ha _ => hsame a ha) fun r hr => ?_, ?_, trivial⟩
    · obtain ⟨hrax,hrsp,-,hflags,-⟩ := hne r hr
      rw [hother₁ r hrax hrsp, hreg₀ r hflags]
    · rw [hsame _ (by omega), hlast, hrax₁]
      exact huser.symm.trans (hreg₀ .rsp (by decide))

theorem exec_resumeSyscall {ctx : Reg → Nat} (h : Lies s.mem ctx (s.reg .rdi) syscallFrame) :
    (∀ r ∈ syscallFrame, (exec resumeSyscall s).reg r = ctx r) ∧
      (exec resumeSyscall s).reg .rip = ctx .rcx ∧
      (exec resumeSyscall s).reg .rflags = ctx .r11 := by
  obtain ⟨hnodup,hne⟩ := syscallKept_ne
  have hstart : (exec [.mov .rsp .rdi] s).reg .rsp = s.reg .rdi ∧
      (exec [.mov .rsp .rdi] s).mem = s.mem := by
    simp [exec, run, step, Cpu.set]
  obtain ⟨hrsp,hmem⟩ := hstart
  obtain ⟨hall,huser,-⟩ := Lies.append.mp h
  rw [resumeSyscall, exec_append, exec_append, exec_append]
  generalize exec [.mov .rsp .rdi] s = s₁ at hrsp hmem ⊢
  obtain ⟨hmem₁,hrsp₁,hin,-⟩ := run_pops .rsp s₁ ctx (.rax :: syscallKept)
    (List.nodup_cons.mpr ⟨by decide, hnodup⟩) (by decide) (by rw [hmem, hrsp]; exact hall)
  rw [← exec] at hmem₁ hrsp₁ hin
  generalize exec ((.rax :: syscallKept).map .pop) s₁ = s₂ at hmem₁ hrsp₁ hin ⊢
  have hload : (exec [.load .rsp .rsp 0] s₂).reg .rsp = s₂.mem (s₂.reg .rsp) ∧
      ∀ r ≠ .rsp, (exec [.load .rsp .rsp 0] s₂).reg r = s₂.reg r := by
    simp +contextual [exec, run, step, Cpu.set]
  obtain ⟨hrsp₂,hother₂⟩ := hload
  obtain ⟨hrip,hflags,hother₃⟩ := exec_sysret (exec [.load .rsp .rsp 0] s₂)
  refine ⟨fun r hr => ?_, ?_, ?_⟩
  · obtain hr | hr := List.mem_append.mp hr
    · have hne' : r ≠ .rsp ∧ r ≠ .rip ∧ r ≠ .rflags := by
        obtain rfl | hr := List.mem_cons.mp hr
        · decide
        · exact ⟨(hne r hr).2.1, (hne r hr).2.2.1, (hne r hr).2.2.2.1⟩
      rw [hother₃ r hne'.2.1 hne'.2.2, hother₂ r hne'.1, hin r hr]
    · obtain rfl := List.mem_singleton.mp hr
      rw [hother₃ .rsp (by decide) (by decide), hrsp₂, hrsp₁, hmem₁, hmem, hrsp]
      exact huser
  · rw [hrip, hother₂ .rcx (by decide), hin .rcx (by decide)]
  · rw [hflags, hother₂ .r11 (by decide), hin .r11 (by decide)]

theorem resumed_answered {c : Core} {x : Nat}
    (h : Lies c.mem (answered s x) (c.reg .rdi) syscallFrame) :
    Answered s x (exec resumeSyscall c) := by
  obtain ⟨hin,hrip,hflags⟩ := exec_resumeSyscall h
  exact ⟨hin, hrip, hflags⟩

/-- The frame of `fork`'s child: a copy of the caller's whose `rax` is 0. -/
structure CopiedFrame (c s : Core) : Prop where
  rax : c.mem (c.reg .rdi) = 0
  rest : ∀ i, i < 15 →
    c.mem (c.reg .rdi+8+8*i) = (entered s).mem ((entered s).reg .rdi+8+8*i)

structure SyscallOk (body : Core → Core) (s : Core) : Prop where
  frame : Lies (entered s).mem (called s) ((entered s).reg .rdi) syscallFrame
  returns : Answered s ((body (entered s)).reg .rax) (exec syscallLeave (body (entered s)))
  /-- A thread that `fork` has started goes on where its parent does, on any core. -/
  forked : ∀ c, CopiedFrame c s → Answered s 0 (exec resumeSyscall c)

/-- A system call gives the program its registers as `SYSCALL` leaves them back, `rcx` with `rip`
and `r11` with the flags, all but the result in `rax`; and `fork`'s child resumes with its parent's
and the result 0. -/
theorem system_calls_return (s : Core) (body : Core → Core) (k : Nat)
    (hk : s.mem (s.reg .gs+tssRsp0) = k) (hroom : 128 ≤ k)
    (hgs : s.reg .gs+68 ≤ k-128 ∨ k ≤ s.reg .gs+tssRsp0) (hbody : Respects .rsp 128 body) :
    SyscallOk body s := by
  obtain ⟨hrdi,hrsp,hlies⟩ := entered_frame hk hroom hgs
  obtain ⟨hsame,hkeep⟩ := hbody (entered s)
  have hlen : 8*(syscallKept ++ [Reg.rsp]).length = 120 := rfl
  have hne : ∀ r ∈ syscallKept ++ [Reg.rsp], r ≠ .rax := by decide
  have hanswer (x : Nat) (r : Reg) (hr : r ∈ syscallKept ++ [Reg.rsp]) :
      answered s x r = called s r := update_of_ne (hne r hr) _ _
  have hrax (x : Nat) : answered s x .rax = x := update_self ..
  refine ⟨hrdi ▸ hlies, ?_, fun c hc => resumed_answered ⟨?_, ?_⟩⟩
  · rw [syscallLeave, exec_append]
    refine resumed_answered ?_
    generalize hs : body (entered s) = s₁ at hsame hkeep ⊢
    have hlast : (exec [.store .rsp 0 .rax, .mov .rdi .rsp] s₁).reg .rdi = s₁.reg .rsp ∧
        (exec [.store .rsp 0 .rax, .mov .rdi .rsp] s₁).mem =
          update s₁.mem (s₁.reg .rsp) (s₁.reg .rax) := by
      simp [exec, run, step, Cpu.set, Cpu.write]
    obtain ⟨hrdi',hmem⟩ := hlast
    rw [hrdi', hmem, hsame, hrsp]
    rw [hrsp] at hkeep
    refine ⟨(update_self ..).trans (hrax _).symm, ?_⟩
    refine hlies.2.congr (fun a ha ha' => ?_) fun r hr => hanswer _ r hr
    have ha' : a < k-128+8+120 := ha'
    rw [update_of_ne (by omega), hkeep a (by omega) (by omega)]
  · exact hc.rax.trans (hrax 0).symm
  · have hcopy := hc.rest
    rw [hrdi] at hcopy
    exact (hlies.2.copy hcopy).congr (fun _ _ _ => rfl) fun r hr => hanswer 0 r hr

/-- A program with another value in each register, on a core whose `PerCore` lies at 8192. -/
def calling : Reg → Nat
  | .rip => 70000
  | .rflags => 70008
  | .rsp => 70016
  | .gs => 8192
  | r => general.idxOf r

theorem system_calls_return_spoilt :
    SyscallOk spoil ⟨calling, update id 8236 4096⟩ :=
  system_calls_return _ spoil 4096 (by simp [calling, tssRsp0]) (by decide) (.inr (by decide))
    (respects_spoil _)

end NetKernel.Assembly
