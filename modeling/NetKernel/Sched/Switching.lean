import NetKernel.Lib.Footprints
import NetKernel.Sched.Assembly

/-! One call of `context_switch_` in company: what it reads and writes at each of its
instructions, and where its stack pointer is. -/
namespace NetKernel.Assembly
open StackCode Function

variable {start : Core} {done rest : List (Instr Reg)} {ctx : Reg → Nat} {prev next p q : Nat}

/-- `context_switch_` until the stack pointer is stored. -/
def pushPart : List (Instr Reg) :=
  [.mov .rax .fs, .push .rbx, .push .rbp, .push .r12, .push .r13, .push .r14, .push .r15,
    .push .rflags, .mov .r15 .cr2, .push .r15, .mov .r14 .cr3, .push .r14,
    .clear .rflags interruptFlag]

def turnPart : List (Instr Reg) := [.store .fs savedRsp .rsp, .mov .fs .rdi]

/-- The instruction that changes the stack. -/
abbrev takeStack : Instr Reg := .load .rsp .fs savedRsp

def popPart : List (Instr Reg) :=
  [.pop .r14, .mov .cr3 .r14, .pop .r15, .mov .cr2 .r15, .pop .rflags, .pop .r15, .pop .r14,
    .pop .r13, .pop .r12, .pop .rbp, .pop .rbx, .mov .rdi .rax, .pop .rip]

theorem contextSwitch_parts : contextSwitch = (pushPart ++ turnPart) ++ takeStack :: popPart := rfl

/-- The thread `prev` calls `context_switch_` for `next`; its stack pointer is `p`, the one that
`next` has saved is `q`. -/
structure Calls (start : Core) (prev next p q : Nat) : Prop where
  fs : start.reg .fs = prev
  rdi : start.reg .rdi = next
  rsp : start.reg .rsp = p
  saved : start.mem (next+savedRsp) = q
  room : 72 ≤ p
  ne : next ≠ prev
  prevApart : prev+savedRsp < p-72 ∨ p+8 ≤ prev+savedRsp
  nextApart : next+savedRsp < p-72 ∨ p+8 ≤ next+savedRsp

theorem pushing_pushPart : (∀ i ∈ pushPart, i.pushing .rsp) ∧ pushPart.countP Instr.isPush = 9 := by
  decide

theorem popping_popPart : (∀ i ∈ popPart, i.popping .rsp) ∧ popPart.countP Instr.isPop = 10 := by
  decide

theorem run_pushPart (s : Core) : (exec pushPart s).reg .fs = s.reg .fs ∧
    (exec pushPart s).reg .rdi = s.reg .rdi := by
  simp [exec, pushPart, run, step, Cpu.set, Cpu.write]

theorem run_turnPart (s : Core) : (exec turnPart s).reg .fs = s.reg .rdi ∧
    (exec turnPart s).reg .rsp = s.reg .rsp ∧
    (exec turnPart s).mem = update s.mem (s.reg .fs+savedRsp) (s.reg .rsp) := by
  simp [exec, turnPart, run, step, Cpu.set, Cpu.write]

theorem run_takeStack (s : Core) :
    (exec [takeStack] s).reg .rsp = s.mem (s.reg .fs+savedRsp) := by
  simp [exec, run, step, Cpu.set]

theorem Calls.pushed (h : Calls start prev next p q) :
    (exec pushPart start).reg .rsp = p-72 ∧
      ∀ a ∈ allWrites .rsp start pushPart, p-72 ≤ a ∧ a < p := by
  obtain ⟨hpush,hcount⟩ := pushing_pushPart
  obtain ⟨hrsp,-,hw⟩ := run_pushing hpush (s := start) (by rw [hcount, h.rsp]; exact h.room)
  rw [hcount, h.rsp] at hrsp
  rw [h.rsp] at hw
  have hroom := h.room
  have htop : (exec pushPart start).reg .rsp = p-72 := by
    change (run .rsp pushPart start).reg .rsp = p-72
    omega
  refine ⟨htop, fun a ha => ?_⟩
  rw [← htop]
  exact hw a ha

theorem turnPart_prefix (s : Core) {code code' : List (Instr Reg)} (h : turnPart = code ++ code') :
    (exec code s).reg .rsp = s.reg .rsp ∧ ∀ a ∈ allWrites .rsp s code, a = s.reg .fs+savedRsp := by
  rcases code with _ | ⟨i,_ | ⟨j,_ | ⟨k,code⟩⟩⟩
  · exact ⟨rfl, fun a ha => absurd ha List.not_mem_nil⟩
  all_goals
    simp only [turnPart, List.cons_append, List.nil_append, List.cons.injEq] at h
    obtain ⟨rfl,h⟩ := h
  · refine ⟨rfl, fun a ha => ?_⟩
    simpa [allWrites, writes] using ha
  all_goals obtain ⟨rfl,h⟩ := h
  · refine ⟨by simp [exec, run, step, Cpu.set, Cpu.write], fun a ha => ?_⟩
    simpa [allWrites, writes] using ha
  · simp at h

/-- Where the stack pointer is on the way to `takeStack`, and what has been written. -/
theorem Calls.before (h : Calls start prev next p q) {code : List (Instr Reg)}
    (hcode : pushPart ++ turnPart = done ++ code) :
    p-72 ≤ (exec done start).reg .rsp ∧ (exec done start).reg .rsp ≤ p ∧
      ∀ a ∈ allWrites .rsp start done,
        (exec done start).reg .rsp ≤ a ∧ a < p ∨ a = prev+savedRsp := by
  obtain ⟨hpush,hcount⟩ := pushing_pushPart
  have hroom := h.room
  obtain ⟨c,rfl,hsplit⟩ | ⟨c,hsplit,-⟩ := List.append_eq_append_iff.mp hcode
  · obtain ⟨hrsp,hw⟩ := h.pushed
    obtain ⟨hsame,hturn⟩ := turnPart_prefix (exec pushPart start) hsplit
    rw [exec_append, hsame, hrsp]
    refine ⟨Nat.le_refl _, Nat.sub_le .., fun a ha => ?_⟩
    rw [allWrites_append, List.mem_append] at ha
    obtain ha | ha := ha
    · exact .inl (hw a ha)
    · refine .inr ((hturn a ha).trans ?_)
      rw [(run_pushPart start).1, h.fs]
  · have hle : done.countP Instr.isPush ≤ 9 := by
      rw [← hcount, hsplit, List.countP_append]
      exact Nat.le_add_right ..
    have hpart : ∀ i ∈ done, i.pushing Reg.rsp := fun i hi =>
      hpush i (hsplit ▸ List.mem_append_left _ hi)
    obtain ⟨hrsp,-,hw⟩ := run_pushing (s := start) hpart (by rw [h.rsp]; omega)
    rw [h.rsp] at hrsp hw
    rw [← exec] at hrsp hw
    exact ⟨by omega, by omega, fun a ha => .inl (hw a ha)⟩

theorem Calls.turned (h : Calls start prev next p q) :
    (exec (pushPart ++ turnPart) start).reg .fs = next ∧
      (exec (pushPart ++ turnPart) start).mem (next+savedRsp) = q ∧
      ∀ a ∈ allWrites .rsp start (pushPart ++ turnPart),
        p-72 ≤ a ∧ a < p ∨ a = prev+savedRsp := by
  obtain ⟨hlow,-,hw⟩ := h.before (List.append_nil _).symm
  have hw' : ∀ a ∈ allWrites .rsp start (pushPart ++ turnPart),
      p-72 ≤ a ∧ a < p ∨ a = prev+savedRsp := fun a ha =>
    (hw a ha).imp_left fun hin => ⟨Nat.le_trans hlow hin.1, hin.2⟩
  refine ⟨?_, ?_, hw'⟩
  · rw [exec_append, (run_turnPart _).1, (run_pushPart start).2, h.rdi]
  · rw [exec, run_frame fun hin => ?_, h.saved]
    have hne := h.ne
    have hroom := h.room
    obtain hin | heq := hw' _ hin
    · have hapart := h.nextApart
      omega
    · exact hne (Nat.add_right_cancel heq)

theorem Calls.after (h : Calls start prev next p q)
    (hdone : done = pushPart ++ turnPart ++ [takeStack]) {code code' : List (Instr Reg)}
    (hcode : popPart = code ++ code') :
    q ≤ (exec (done ++ code) start).reg .rsp ∧ (exec (done ++ code) start).reg .rsp ≤ q+80 ∧
      allWrites .rsp (exec done start) code = [] ∧
      ∀ a ∈ allReads .rsp (exec (done ++ code) start) code',
        (exec (done ++ code) start).reg .rsp ≤ a ∧ a < q+80 := by
  subst hdone
  obtain ⟨hfs,hsaved,-⟩ := h.turned
  obtain ⟨hpop,hcount⟩ := popping_popPart
  have hq : (exec (pushPart ++ turnPart ++ [takeStack]) start).reg .rsp = q := by
    rw [exec_append, run_takeStack, hfs, hsaved]
  have hcounts : code.countP Instr.isPop+code'.countP Instr.isPop = 10 := by
    rw [← List.countP_append, ← hcode, hcount]
  have hfirst : ∀ i ∈ code, i.popping Reg.rsp := fun i hi =>
    hpop i (hcode ▸ List.mem_append_left _ hi)
  have hlast : ∀ i ∈ code', i.popping Reg.rsp := fun i hi =>
    hpop i (hcode ▸ List.mem_append_right _ hi)
  obtain ⟨hrsp,hw,-⟩ := run_popping (s := exec (pushPart ++ turnPart ++ [takeStack]) start) hfirst
  rw [hq, ← exec, ← exec_append] at hrsp
  obtain ⟨-,-,hr⟩ := run_popping
    (s := exec (pushPart ++ turnPart ++ [takeStack] ++ code) start) hlast
  rw [hrsp] at hr ⊢
  refine ⟨Nat.le_add_right .., by omega, hw, fun a ha => ⟨(hr a ha).1, ?_⟩⟩
  have := (hr a ha).2
  omega

theorem allReads_before (s : Core) : allReads .rsp s (pushPart ++ turnPart) = [] := rfl

theorem Calls.allReads (h : Calls start prev next p q) :
    ∀ a ∈ allReads .rsp start contextSwitch, a = next+savedRsp ∨ q ≤ a ∧ a < q+80 := by
  intro a ha
  obtain ⟨hfs,-,-⟩ := h.turned
  have hparts : popPart = [] ++ popPart := rfl
  obtain ⟨hlow,-,-,hr⟩ := h.after rfl hparts
  rw [List.append_nil] at hlow hr
  rw [contextSwitch_parts, allReads_append, allReads_before, List.nil_append] at ha
  obtain ha | ha := List.mem_append.mp ha
  · refine .inl ((List.mem_singleton.mp ha).trans ?_)
    rw [← exec, hfs]
  · refine .inr ?_
    rw [← exec] at ha
    rw [exec_append] at hlow hr
    exact ⟨Nat.le_trans hlow (hr a ha).1, (hr a ha).2⟩

theorem allWrites_takeStack (s : Core) (code : List (Instr Reg)) :
    StackCode.allWrites .rsp s (takeStack :: code) =
      StackCode.allWrites .rsp (exec [takeStack] s) code := rfl

theorem Calls.allWrites (h : Calls start prev next p q) :
    ∀ a ∈ allWrites .rsp start contextSwitch, p-72 ≤ a ∧ a < p ∨ a = prev+savedRsp := by
  intro a ha
  obtain ⟨-,-,hw⟩ := h.turned
  have hparts : popPart = popPart ++ [] := (List.append_nil _).symm
  obtain ⟨-,-,hnone,-⟩ := h.after rfl hparts
  rw [contextSwitch_parts, allWrites_append, List.mem_append] at ha
  obtain ha | ha := ha
  · exact hw a ha
  · rw [exec_append] at hnone
    rw [← exec, allWrites_takeStack, hnone] at ha
    cases ha

theorem Calls.mem_allWrites (h : Calls start prev next p q) :
    prev+savedRsp ∈ StackCode.allWrites .rsp start contextSwitch ∧
      ∀ k, k < 9 → p-8*(k+1) ∈ StackCode.allWrites .rsp start contextSwitch := by
  obtain ⟨hpush,hcount⟩ := pushing_pushPart
  rw [contextSwitch_parts, allWrites_append, allWrites_append]
  constructor
  · refine List.mem_append_left _ (List.mem_append_right _ ?_)
    have hcell := (run_pushPart start).1.trans h.fs
    exact hcell ▸ List.mem_cons_self
  · intro k hk
    refine List.mem_append_left _ (List.mem_append_left _ ?_)
    have := mem_allWrites_pushing (s := start) hpush (hcount.symm ▸ hk)
    rwa [h.rsp] at this

/-- A call between two of its instructions. Before `takeStack` it is on the stack of `prev`,
after it on that of `next`, and what it still needs of that stack is not below the pointer. -/
theorem Calls.stage (h : Calls start prev next p q) (hcode : contextSwitch = done ++ rest) :
    let rsp := (exec done start).reg .rsp
    takeStack ∈ rest ∧ (p-72 ≤ rsp ∧ rsp ≤ p) ∧
      (∀ a ∈ StackCode.allWrites .rsp start done, rsp ≤ a ∧ a < p ∨ a = prev+savedRsp) ∨
    takeStack ∉ rest ∧ (q ≤ rsp ∧ rsp ≤ q+80) ∧
      ∀ a ∈ StackCode.allReads .rsp (exec done start) rest, rsp ≤ a ∧ a < q+80 := by
  have hnot : takeStack ∉ popPart := by decide
  obtain ⟨c,rfl,hrest⟩ | ⟨c,hdone,rfl⟩ :=
    List.append_eq_append_iff.mp (contextSwitch_parts.symm.trans hcode)
  · cases c with
    | nil =>
      rw [List.append_nil]
      have hrest : takeStack :: popPart = rest := hrest
      obtain ⟨hlow,hhigh,hw⟩ := h.before (List.append_nil _).symm
      exact .inl ⟨hrest ▸ List.mem_cons_self, ⟨hlow, hhigh⟩, hw⟩
    | cons i c =>
      obtain ⟨rfl,hpop⟩ := List.cons.inj hrest
      obtain ⟨hlow,hhigh,-,hr⟩ := h.after rfl hpop
      rw [List.append_assoc, List.singleton_append] at hlow hhigh hr
      exact .inr ⟨fun hin => hnot (hpop ▸ List.mem_append_right _ hin), ⟨hlow, hhigh⟩, hr⟩
  · obtain ⟨hlow,hhigh,hw⟩ := h.before hdone
    exact .inl ⟨List.mem_append_right _ List.mem_cons_self, ⟨hlow, hhigh⟩, hw⟩

theorem Calls.over (h : Calls start prev next p q) (hframe : Lies start.mem ctx q frame)
    (hapart : q+80 ≤ p-72 ∨ p+8 ≤ q) (hprev : prev+savedRsp < q ∨ q+80 ≤ prev+savedRsp) :
    Resumed ctx prev next (exec contextSwitch start) ∧
      (exec contextSwitch start).reg .rsp = q+80 ∧ Saved start (exec contextSwitch start) := by
  have hroom := h.room
  have hne := h.ne
  have hprevApart := h.prevApart
  have hnextApart := h.nextApart
  obtain ⟨hsaved,hrax,hrdi⟩ := exec_savePart (s := start) (by rw [h.rsp]; exact hroom)
    (by rw [h.fs, h.rsp]; exact hprevApart)
  have hrest := hsaved.rest
  rw [h.rsp, h.fs] at hrest
  have htop : (exec savePart start).mem ((exec savePart start).reg .rdi+savedRsp) = q := by
    rw [hrdi, h.rdi, hrest _ (by omega) fun heq => hne (Nat.add_right_cancel heq), h.saved]
  have hlies : Lies (exec savePart start).mem ctx q frame :=
    hframe.congr (fun a ha ha' => hrest a (by
      have ha' : a < q+80 := ha'
      omega) (by
      have ha' : a < q+80 := ha'
      omega)) fun _ _ => rfl
  obtain ⟨hresumed,hrsp,hmem⟩ := exec_loadPart htop hlies
  rw [← exec_append, ← contextSwitch] at hresumed hrsp hmem
  rw [hrax, hrdi, h.fs, h.rdi] at hresumed
  exact ⟨hresumed, hrsp, ⟨hmem ▸ hsaved.frame, hmem ▸ hsaved.saved, hmem ▸ hsaved.rest⟩⟩

end NetKernel.Assembly
