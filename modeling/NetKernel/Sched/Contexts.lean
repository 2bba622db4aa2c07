import NetKernel.Lib.Runs
import NetKernel.Sched.Switching

/-! Threads changing cores: any number of cores run `context_switch_` one instruction at a time,
interrupts come between its instructions, threads are made and deallocated. -/
namespace NetKernel.Contexts
open Assembly StackCode Runs Function
variable {κ : Type*}

inductive Status where
  | absent
  | running
  | leaving
  | entering
  | suspended
deriving DecidableEq, Repr

def Status.frozen : Status → Bool
  | .leaving | .entering | .suspended => true
  | .absent | .running => false

/-- What matters here of a TCB. No step reads `left`: the registers its thread was left with. -/
structure Thread where
  status : Status
  theStack : Nat
  stackBottom : Nat
  left : Reg → Nat

/-- Where a core is: in its thread's own code, in `context_switch_` with `rest` to go, or back
from it with `post_switch` to do. -/
inductive Phase where
  | run
  | switching (prev next : Nat) (rest : List (Instr Reg))
  | switched (prev : Nat)
deriving DecidableEq

structure State (κ : Type*) where
  regs : κ → Reg → Nat
  mem : Nat → Nat
  phase : κ → Phase
  thread : Nat → Thread

/-- `compute` is any code of the running thread, `interrupt` a handler on its stack; the others
are calls of the functions they are named after, `tick` one instruction of `context_switch_`. -/
inductive Action (κ : Type*) where
  | compute (c : κ) (regs : Reg → Nat) (mem : Nat → Nat)
  | interrupt (c : κ) (mem : Nat → Nat)
  | contextSwitch (c : κ)
  | tick (c : κ)
  | postSwitch (c : κ)
  | makeThread (tcb stack entry commonCr3 : Nat)
  | dealloc (tcb : Nat)

abbrev stackQuads : Nat := 2048

/-- The stores of `make_thread`. -/
def makeStack (mem : Nat → Nat) (tcb stack entry commonCr3 : Nat) : Nat → Nat :=
  [(stack+8*(stackQuads-1), entry), (stack+8*(stackQuads-2), 0), (stack+8*(stackQuads-3), 0),
    (stack+8*(stackQuads-4), 0), (stack+8*(stackQuads-5), 0), (stack+8*(stackQuads-6), 0),
    (stack+8*(stackQuads-7), 0), (stack+8*(stackQuads-8), interruptFlag),
    (stack+8*(stackQuads-9), 0), (stack+8*(stackQuads-10), commonCr3),
    (tcb+savedRsp, stack+8*(stackQuads-10))].foldl (fun mem cell => update mem cell.1 cell.2) mem

/-- How a new thread starts: in `entry`, on an empty stack, with interrupts on. -/
def fresh (stack entry commonCr3 : Nat) : Reg → Nat
  | .rip => entry
  | .rsp => stack+8*stackQuads
  | .rflags => interruptFlag
  | .cr3 => commonCr3
  | _ => 0

/-- The registers of the caller of `context_switch_` once it returns. -/
def resumption (s : Core) : Reg → Nat := update (returned s) .rsp (s.reg .rsp+8)

def State.core (s : State κ) (c : κ) : Core := ⟨s.regs c, s.mem⟩

def State.setStatus (s : State κ) (t : Nat) (status : Status) : State κ :=
  { s with thread := update s.thread t { s.thread t with status := status } }

variable [DecidableEq κ]

def step (s : State κ) : Action κ → Option (State κ)
  | .compute c regs mem =>
    match s.phase c with
    | .run => some { s with regs := update s.regs c regs, mem := mem }
    | _ => none
  | .interrupt c mem =>
    match s.phase c with
    | .switching _ _ _ | .switched _ => some { s with mem := mem }
    | .run => none
  | .contextSwitch c =>
    let prev := s.regs c .fs
    let next := s.regs c .rdi
    match s.phase c with
    | .run =>
      let left := { s.thread prev with status := .leaving, left := resumption (s.core c) }
      some { s with
        phase := update s.phase c (.switching prev next Assembly.contextSwitch)
        thread := update (update s.thread prev left) next
          { s.thread next with status := .entering } }
    | _ => none
  | .tick c =>
    match s.phase c with
    | .switching prev next (i :: rest) =>
      let core := StackCode.step .rsp (s.core c) i
      let s' : State κ := { s with regs := update s.regs c core.reg, mem := core.mem }
      match rest with
      | [] => some { s'.setStatus next .running with phase := update s.phase c (.switched prev) }
      | _ => some { s' with phase := update s.phase c (.switching prev next rest) }
    | _ => none
  | .postSwitch c =>
    match s.phase c with
    | .switched prev =>
      some { s.setStatus prev .suspended with phase := update s.phase c .run }
    | _ => none
  | .makeThread tcb stack entry commonCr3 => some { s with
      mem := makeStack s.mem tcb stack entry commonCr3
      thread := update s.thread tcb
        ⟨.suspended, stack, stack+8*stackQuads, fresh stack entry commonCr3⟩ }
  | .dealloc tcb => some (s.setStatus tcb .absent)

/-! What the threads' own code and the scheduler must not do. -/

/-- The cells a thread that does not run comes back from. -/
def Thread.Guards (th : Thread) (t a : Nat) : Prop :=
  a = t+savedRsp ∨ th.left .rsp-80 ≤ a ∧ a < th.left .rsp

def State.Kept (s : State κ) (a : Nat) : Prop :=
  ∃ t, (s.thread t).status.frozen = true ∧ (s.thread t).Guards t a

/-- The thread on whose stack a core is. -/
def Phase.onStackOf (tcb : Nat) : Phase → Nat
  | .run | .switched _ => tcb
  | .switching prev next rest => if takeStack ∈ rest then prev else next

/-- Two threads whose stacks and stack pointers lie apart. -/
structure Apart (t u : Nat) (x y : Thread) : Prop where
  theStacks : t ≠ u → x.stackBottom ≤ y.theStack ∨ y.stackBottom ≤ x.theStack
  cell : t+savedRsp < y.theStack ∨ y.stackBottom ≤ t+savedRsp

/-- No code writes to what a thread comes back from, nor `fs`; a handler writes below the stack
pointer; stacks do not overflow; new threads get memory of their own. `context_switch_` does not
look at the thread it is given: it and `dealloc` are called on a suspended one. -/
def Tame (s : State κ) : Action κ → Prop
  | .compute c regs mem => regs .fs = s.regs c .fs ∧ ∀ a, s.Kept a → mem a = s.mem a
  | .interrupt c mem => ∀ a, mem a ≠ s.mem a → ¬ s.Kept a ∨
      (s.thread ((s.phase c).onStackOf (s.regs c .fs))).theStack ≤ a ∧ a < s.regs c .rsp
  | .contextSwitch c =>
    (s.thread (s.regs c .rdi)).status = .suspended ∧
      (s.thread (s.regs c .fs)).theStack+72 ≤ s.regs c .rsp ∧
      s.regs c .rsp+8 ≤ (s.thread (s.regs c .fs)).stackBottom
  | .makeThread tcb stack entry commonCr3 =>
    let th : Thread := ⟨.suspended, stack, stack+8*stackQuads, fresh stack entry commonCr3⟩
    (s.thread tcb).status = .absent ∧ Apart tcb tcb th th ∧ ∀ u, (s.thread u).status ≠ .absent →
      Apart tcb u th (s.thread u) ∧ Apart u tcb (s.thread u) th
  | .dealloc tcb => (s.thread tcb).status = .suspended
  | .tick _ | .postSwitch _ => True

/-- At boot every core runs a thread of its own. -/
def machine (κ : Type*) [DecidableEq κ] : Machine (State κ) (Action κ) where
  Init s :=
    (∀ c, s.phase c = .run ∧ (s.thread (s.regs c .fs)).status = .running) ∧
    (∀ c d, s.regs c .fs = s.regs d .fs → c = d) ∧
    (∀ t, (s.thread t).status = .absent ∨ (s.thread t).status = .running) ∧
    ∀ t u, (s.thread t).status ≠ .absent → (s.thread u).status ≠ .absent →
      Apart t u (s.thread t) (s.thread u)
  step := step

/-! The invariant. -/

variable {s s' : State κ} {c d : κ} {t u a prev next : Nat} {th : Thread}

/-- A thread that does not run, with its registers on its stack. -/
structure Parked (th : Thread) (t : Nat) (mem : Nat → Nat) : Prop where
  saved : mem (t+savedRsp) = th.left .rsp-80
  frame : Lies mem th.left (th.left .rsp-80) frame

/-- The state in which a core called `context_switch_`. -/
structure Began (s : State κ) (start : Core) (prev next p q : Nat) : Prop where
  calls : Calls start prev next p q
  left : (s.thread prev).left = resumption start
  saved : (s.thread next).left .rsp = q+80
  frame : Lies start.mem (s.thread next).left q frame

/-- A core that has come back from `context_switch_`, in another thread. -/
structure Back (s : State κ) (c : κ) (prev : Nat) : Prop where
  resumed : Resumed (s.thread (s.regs c .fs)).left prev (s.regs c .fs) (s.core c)
  rsp : s.regs c .rsp = (s.thread (s.regs c .fs)).left .rsp
  bottom : s.regs c .rsp ≤ (s.thread (s.regs c .fs)).stackBottom

/-- The threads a core answers for. -/
def State.holds (s : State κ) (c : κ) : List Nat :=
  match s.phase c with
  | .run => [s.regs c .fs]
  | .switching prev next _ => [prev, next]
  | .switched prev => [s.regs c .fs, prev]

def CoreInv (s : State κ) (c : κ) : Prop :=
  match s.phase c with
  | .run => (s.thread (s.regs c .fs)).status = .running
  | .switching prev next rest =>
    (s.thread prev).status = .leaving ∧ (s.thread next).status = .entering ∧ rest ≠ [] ∧
      ∃ start done p q, Assembly.contextSwitch = done ++ rest ∧ Began s start prev next p q ∧
        Along .rsp (· = p) start done rest (s.core c)
  | .switched prev =>
    (s.thread (s.regs c .fs)).status = .running ∧ (s.thread prev).status = .leaving ∧
      Parked (s.thread prev) prev s.mem ∧ Back s c prev

structure Inv (s : State κ) : Prop where
  apart : ∀ t u, (s.thread t).status ≠ .absent → (s.thread u).status ≠ .absent →
    Apart t u (s.thread t) (s.thread u)
  fits : ∀ t, (s.thread t).status.frozen = true →
    (s.thread t).theStack+80 ≤ (s.thread t).left .rsp ∧
      (s.thread t).left .rsp ≤ (s.thread t).stackBottom
  cores : ∀ c, CoreInv s c
  unique : ∀ c d t, t ∈ s.holds c → t ∈ s.holds d → c = d
  parked : ∀ t, (s.thread t).status = .suspended → Parked (s.thread t) t s.mem

omit [DecidableEq κ] in
theorem Inv.guards_apart (h : Inv s) (ht : (s.thread t).status.frozen = true)
    (hu : (s.thread u).status.frozen = true) (hne : t ≠ u) (hta : (s.thread t).Guards t a) :
    ¬ (s.thread u).Guards u a := by
  have hpresent {t : Nat} (ht : (s.thread t).status.frozen = true) :
      (s.thread t).status ≠ .absent := fun hs => by rw [hs] at ht; cases ht
  have htu := h.apart t u (hpresent ht) (hpresent hu)
  have hut := h.apart u t (hpresent hu) (hpresent ht)
  have hstacks := htu.theStacks hne
  have hcell := htu.cell
  have hcell' := hut.cell
  obtain ⟨ht,ht'⟩ := h.fits t ht
  obtain ⟨hu,hu'⟩ := h.fits u hu
  rintro (rfl | hua)
  · obtain heq | hta := hta
    · exact hne (Nat.add_right_cancel heq).symm
    · omega
  · obtain rfl | hta := hta
    · omega
    · omega

theorem Parked.congr {mem mem' : Nat → Nat} (h : Parked th t mem) (hfits : 80 ≤ th.left .rsp)
    (hmem : ∀ a, th.Guards t a → mem' a = mem a) : Parked th t mem' := by
  refine ⟨(hmem _ (.inl rfl)).trans h.saved, h.frame.congr (fun a ha ha' => ?_) fun _ _ => rfl⟩
  have ha' : a < th.left .rsp-80+80 := ha'
  exact hmem a (.inr ⟨ha, by omega⟩)

section
variable {start : Core} {done rest : List (Instr Reg)} {p q : Nat}

omit [DecidableEq κ]

theorem Began.left_rsp (h : Began s start prev next p q) : (s.thread prev).left .rsp = p+8 := by
  rw [h.left, resumption, update_self, h.calls.rsp]

theorem Began.guards_writes (h : Began s start prev next p q)
    (hcode : Assembly.contextSwitch = done ++ rest)
    (ha : a = p ∨ a ∈ allWrites .rsp start done) : (s.thread prev).Guards prev a := by
  have hroom := h.calls.room
  rw [Thread.Guards, h.left_rsp]
  obtain rfl | ha := ha
  · exact .inr (by omega)
  · have hin : a ∈ allWrites .rsp start Assembly.contextSwitch := by
      rw [hcode, allWrites_append]
      exact List.mem_append_left _ ha
    obtain hin | rfl := h.calls.allWrites a hin
    · exact .inr (by omega)
    · exact .inl rfl

theorem Began.guards_reads (h : Began s start prev next p q)
    (hcode : Assembly.contextSwitch = done ++ rest)
    (ha : a ∈ allReads .rsp (run .rsp done start) rest) : (s.thread next).Guards next a := by
  rw [Thread.Guards, h.saved, Nat.add_sub_cancel]
  refine h.calls.allReads a ?_
  rw [hcode, allReads_append]
  exact List.mem_append_right _ ha

theorem CoreInv.congr (h : CoreInv s d) (hfits : ∀ t, (s.thread t).status.frozen = true →
      (s.thread t).theStack+80 ≤ (s.thread t).left .rsp)
    (hphase : s'.phase d = s.phase d) (hregs : s'.regs d = s.regs d)
    (hthread : ∀ t ∈ s.holds d, s'.thread t = s.thread t)
    (hmem : ∀ t ∈ s.holds d, (s.thread t).status.frozen = true → ∀ a, (s.thread t).Guards t a →
      s'.mem a = s.mem a) : CoreInv s' d := by
  unfold CoreInv State.holds at *
  rw [hphase]
  cases hp : s.phase d with
  | run =>
    simp only [hp, List.mem_singleton, forall_eq] at h hthread ⊢
    rw [hregs, hthread]
    exact h
  | switching prev next rest =>
    simp only [hp] at h hthread hmem ⊢
    obtain ⟨hprev,hnext,hrest,start,done,p,q,hcode,hbegan,halong⟩ := h
    have hprev' := hthread prev List.mem_cons_self
    have hnext' := hthread next (List.mem_cons_of_mem _ List.mem_cons_self)
    refine ⟨hprev' ▸ hprev, hnext' ▸ hnext, hrest, start, done, p, q, hcode, ?_, ?_⟩
    · exact ⟨hbegan.calls, hprev' ▸ hbegan.left, hnext' ▸ hbegan.saved, hnext' ▸ hbegan.frame⟩
    · refine halong.congr hregs fun a ha => ?_
      rw [← or_assoc] at ha
      obtain ha | ha := ha
      · exact hmem prev List.mem_cons_self (by rw [hprev]; rfl) a (hbegan.guards_writes hcode ha)
      · exact hmem next (List.mem_cons_of_mem _ List.mem_cons_self) (by rw [hnext]; rfl) a
          (hbegan.guards_reads hcode ha)
  | switched prev =>
    simp only [hp] at h hthread hmem ⊢
    obtain ⟨hfs,hprev,hparked,hback⟩ := h
    have hfs' := hthread _ List.mem_cons_self
    have hprev' := hthread prev (List.mem_cons_of_mem _ List.mem_cons_self)
    have hfrozen : (s.thread prev).status.frozen = true := by rw [hprev]; rfl
    rw [hregs, hfs', hprev']
    refine ⟨hfs, hprev, hparked.congr (Nat.le_of_add_left_le (hfits prev hfrozen))
      (hmem prev (List.mem_cons_of_mem _ List.mem_cons_self) hfrozen), ?_⟩
    obtain ⟨⟨hkept,hfs,hprev⟩,hrsp,hbottom⟩ := hback
    have hcore : (s'.core d).reg = (s.core d).reg := hregs
    exact ⟨by rw [hregs, hfs']; exact ⟨hcore ▸ hkept, hcore ▸ hfs, hcore ▸ hprev⟩,
      by rw [hregs, hfs']; exact hrsp, by rw [hregs, hfs']; exact hbottom⟩

theorem CoreInv.status (h : CoreInv s c) (ht : t ∈ s.holds c) :
    (s.thread t).status ≠ .absent ∧ (s.thread t).status ≠ .suspended := by
  unfold CoreInv State.holds at *
  cases hp : s.phase c with
  | run =>
    simp only [hp, List.mem_singleton] at h ht
    rw [ht, h]
    decide
  | switching prev next rest =>
    simp only [hp, List.mem_cons, List.not_mem_nil, or_false] at h ht
    obtain rfl | rfl := ht
    · rw [h.1]
      decide
    · rw [h.2.1]
      decide
  | switched prev =>
    simp only [hp, List.mem_cons, List.not_mem_nil, or_false] at h ht
    obtain rfl | rfl := ht
    · rw [h.1]
      decide
    · rw [h.2.1]
      decide

theorem Inv.guards_off_stack (h : Inv s) (ht : (s.thread t).status ≠ .absent)
    (hu : (s.thread u).status.frozen = true) (hne : t ≠ u) (ha : (s.thread u).Guards u a) :
    a < (s.thread t).theStack ∨ (s.thread t).stackBottom ≤ a := by
  have hu' : (s.thread u).status ≠ .absent := fun hs => by rw [hs] at hu; cases hu
  have hstacks := (h.apart t u ht hu').theStacks hne
  obtain ⟨hlow,hhigh⟩ := h.fits u hu
  obtain rfl | ha := ha
  · exact (h.apart u t hu' ht).cell
  · omega

theorem Inv.onStack (h : Inv s) (hc : s.phase c ≠ .run) :
    (s.phase c).onStackOf (s.regs c .fs) ∈ s.holds c ∧
      s.regs c .rsp ≤ (s.thread ((s.phase c).onStackOf (s.regs c .fs))).stackBottom := by
  have hcore := h.cores c
  unfold CoreInv State.holds at *
  cases hp : s.phase c with
  | run => exact absurd hp hc
  | switching prev next rest =>
    simp only [hp, Phase.onStackOf] at hcore ⊢
    obtain ⟨hprev,hnext,-,start,done,p,q,hcode,hbegan,halong⟩ := hcore
    have hrsp : s.regs c .rsp = (exec done start).reg .rsp := congrFun halong.reg .rsp
    have hfits := h.fits prev (by rw [hprev]; rfl)
    have hfits' := h.fits next (by rw [hnext]; rfl)
    rw [hbegan.left_rsp] at hfits
    rw [hbegan.saved] at hfits'
    obtain ⟨hin,hr,-⟩ | ⟨hin,hr,-⟩ := hbegan.calls.stage hcode
    · rw [if_pos hin]
      exact ⟨List.mem_cons_self, by omega⟩
    · rw [if_neg hin]
      exact ⟨List.mem_cons_of_mem _ List.mem_cons_self, by omega⟩
  | switched prev =>
    simp only [hp, Phase.onStackOf] at hcore ⊢
    exact ⟨List.mem_cons_self, hcore.2.2.2.bottom⟩

end

/-! What each step preserves. -/

omit [DecidableEq κ] in
theorem Inv.quiet (h : Inv s) (hthread : s'.thread = s.thread)
    (hholds : ∀ d, s'.holds d = s.holds d) (hcores : ∀ d, CoreInv s' d)
    (hmem : ∀ t, (s.thread t).status = .suspended → ∀ a, (s.thread t).Guards t a →
      s'.mem a = s.mem a) : Inv s' := by
  refine ⟨hthread ▸ h.apart, hthread ▸ h.fits, hcores, fun c d t => ?_, fun t ht => ?_⟩
  · rw [hholds, hholds]
    exact h.unique c d t
  · rw [hthread] at ht ⊢
    exact (h.parked t ht).congr (Nat.le_of_add_left_le (h.fits t (by rw [ht]; rfl)).1) (hmem t ht)

theorem Inv.compute {regs : Reg → Nat} {mem : Nat → Nat} (h : Inv s) (hc : s.phase c = .run)
    (hfs : regs .fs = s.regs c .fs) (hmem : ∀ a, s.Kept a → mem a = s.mem a) :
    Inv { s with regs := update s.regs c regs, mem := mem } := by
  have hholds (d : κ) : State.holds { s with regs := update s.regs c regs, mem := mem } d =
      s.holds d := by
    unfold State.holds
    by_cases hd : d = c
    · subst hd
      simp only [hc, update_self, hfs]
    · simp only [update_of_ne hd]
  refine h.quiet rfl hholds (fun d => ?_) fun t ht a ha => hmem a ⟨t, by rw [ht]; rfl, ha⟩
  by_cases hd : d = c
  · subst hd
    have hcore := h.cores d
    unfold CoreInv at *
    simp only [hc, update_self, hfs] at hcore ⊢
    exact hcore
  · exact (h.cores d).congr (fun t ht => (h.fits t ht).1) rfl (update_of_ne hd _ _)
      (fun _ _ => rfl) fun t _ hfrozen a ha => hmem a ⟨t, hfrozen, ha⟩

omit [DecidableEq κ] in
theorem Inv.interrupt_self {mem : Nat → Nat} (h : Inv s) (hc : s.phase c ≠ .run)
    (hmem : ∀ a, mem a ≠ s.mem a → ¬ s.Kept a ∨
      (s.thread ((s.phase c).onStackOf (s.regs c .fs))).theStack ≤ a ∧ a < s.regs c .rsp) :
    CoreInv { s with mem := mem } c := by
  obtain ⟨hheld,hbottom⟩ := h.onStack hc
  have hcore := h.cores c
  have hpresent := (hcore.status hheld).1
  have hself := (h.apart _ _ hpresent hpresent).cell
  have hkeep (u : Nat) (a : Nat) (hu : (s.thread u).status.frozen = true)
      (ha : (s.thread u).Guards u a)
      (hat : u = (s.phase c).onStackOf (s.regs c .fs) → a < s.regs c .rsp →
        a = u+savedRsp ∨ a < (s.thread u).theStack) : mem a = s.mem a := by
    by_contra hne
    obtain hk | ⟨hlow,hhigh⟩ := hmem a hne
    · exact hk ⟨u, hu, ha⟩
    · by_cases htu : (s.phase c).onStackOf (s.regs c .fs) = u
      · rw [htu] at hself hlow hbottom
        obtain heq | hlt := hat htu.symm hhigh
        · omega
        · omega
      · have hoff := h.guards_off_stack hpresent hu htu ha
        omega
  unfold CoreInv at *
  cases hp : s.phase c with
  | run => exact absurd hp hc
  | switching prev next rest =>
    simp only [hp, Phase.onStackOf] at hcore hkeep ⊢
    obtain ⟨hprev,hnext,hrest,start,done,p,q,hcode,hbegan,halong⟩ := hcore
    have hrsp : s.regs c .rsp = (exec done start).reg .rsp := congrFun halong.reg .rsp
    refine ⟨hprev, hnext, hrest, start, done, p, q, hcode,
      ⟨hbegan.calls, hbegan.left, hbegan.saved, hbegan.frame⟩, halong.congr rfl fun a ha => ?_⟩
    have hne : next ≠ prev := hbegan.calls.ne
    have hstage := hbegan.calls.stage hcode
    dsimp only at hstage
    rw [← hrsp] at hstage
    rw [← or_assoc] at ha
    obtain ha | ha := ha
    · refine hkeep prev a (by rw [hprev]; rfl) (hbegan.guards_writes hcode ha) fun hat hlt => ?_
      obtain ⟨-,hr,hw⟩ | ⟨hin,-⟩ := hstage
      · obtain rfl | ha := ha
        · omega
        · obtain hw | heq := hw a ha
          · omega
          · exact .inl heq
      · rw [if_neg hin] at hat
        exact absurd hat.symm hne
    · refine hkeep next a (by rw [hnext]; rfl) (hbegan.guards_reads hcode ha) fun hat hlt => ?_
      obtain ⟨hin,-⟩ | ⟨-,-,hr⟩ := hstage
      · rw [if_pos hin] at hat
        exact absurd hat hne
      · have := hr a ha
        omega
  | switched prev =>
    simp only [hp, Phase.onStackOf] at hcore hkeep ⊢
    obtain ⟨hfs,hprev,hparked,⟨hresumed,hrsp,hbottom⟩⟩ := hcore
    have hfrozen : (s.thread prev).status.frozen = true := by rw [hprev]; rfl
    refine ⟨hfs, hprev, hparked.congr (Nat.le_of_add_left_le (h.fits prev hfrozen).1)
      fun a ha => hkeep prev a hfrozen ha fun hat => ?_, ?_⟩
    · rw [hat, hfs] at hprev
      cases hprev
    · exact ⟨⟨hresumed.kept, hresumed.fs, hresumed.prev⟩, hrsp, hbottom⟩

theorem Inv.interrupt {mem : Nat → Nat} (h : Inv s) (hc : s.phase c ≠ .run)
    (hmem : ∀ a, mem a ≠ s.mem a → ¬ s.Kept a ∨
      (s.thread ((s.phase c).onStackOf (s.regs c .fs))).theStack ≤ a ∧ a < s.regs c .rsp) :
    Inv { s with mem := mem } := by
  obtain ⟨hheld,hbottom⟩ := h.onStack hc
  have hpresent := ((h.cores c).status hheld).1
  have hother (u : Nat) (a : Nat) (hu : (s.thread u).status.frozen = true)
      (ha : (s.thread u).Guards u a) (hne : (s.phase c).onStackOf (s.regs c .fs) ≠ u) :
      mem a = s.mem a := by
    by_contra hchange
    obtain hk | ⟨hlow,hhigh⟩ := hmem a hchange
    · exact hk ⟨u, hu, ha⟩
    · have hoff := h.guards_off_stack hpresent hu hne ha
      omega
  refine h.quiet rfl (fun _ => rfl) (fun d => ?_) fun u hu a ha =>
    hother u a (by rw [hu]; rfl) ha ?_
  · by_cases hd : d = c
    · rw [hd]
      exact h.interrupt_self hc hmem
    · refine (h.cores d).congr (fun t ht => (h.fits t ht).1) rfl rfl (fun _ _ => rfl)
        fun u hin hu a ha => hother u a hu ha ?_
      rintro rfl
      exact hd (h.unique d c _ hin hheld)
  · rintro rfl
    exact ((h.cores c).status hheld).2 hu

omit [DecidableEq κ] in
theorem Apart.congr {x y x' y' : Thread} (h : Apart t u x y) (hx : x'.stackBottom = x.stackBottom)
    (hx' : x'.theStack = x.theStack) (hy : y'.stackBottom = y.stackBottom)
    (hy' : y'.theStack = y.theStack) : Apart t u x' y' :=
  ⟨by rw [hx, hx', hy, hy']; exact h.theStacks, by rw [hy, hy']; exact h.cell⟩

omit [DecidableEq κ] in
theorem Inv.change (h : Inv s) (c : κ)
    (hothers : ∀ d, d ≠ c → s'.phase d = s.phase d ∧ s'.regs d = s.regs d)
    (hthread : ∀ t, t ∉ s.holds c → (s.thread t).status ≠ .suspended →
      s'.thread t = s.thread t)
    (hstack : ∀ t, (s'.thread t).theStack = (s.thread t).theStack ∧
      (s'.thread t).stackBottom = (s.thread t).stackBottom)
    (hpresent : ∀ t, (s'.thread t).status ≠ .absent → (s.thread t).status ≠ .absent)
    (hfits : ∀ t, (s'.thread t).status.frozen = true → s'.thread t = s.thread t ∨
      (s.thread t).theStack+80 ≤ (s'.thread t).left .rsp ∧
        (s'.thread t).left .rsp ≤ (s.thread t).stackBottom)
    (hmem : ∀ t, (s.thread t).status.frozen = true → t ∉ s.holds c →
      ∀ a, (s.thread t).Guards t a → s'.mem a = s.mem a)
    (hholds : ∀ t ∈ s'.holds c, t ∈ s.holds c ∨ (s.thread t).status = .suspended)
    (hself : CoreInv s' c)
    (hparked : ∀ t, (s'.thread t).status = .suspended →
      s'.thread t = s.thread t ∧ t ∉ s.holds c ∨ Parked (s'.thread t) t s'.mem) : Inv s' := by
  have hsame (d : κ) (hd : d ≠ c) : s'.holds d = s.holds d := by
    unfold State.holds
    rw [(hothers d hd).1, (hothers d hd).2]
  have hfree (d : κ) (hd : d ≠ c) (t : Nat) (ht : t ∈ s'.holds c) : t ∉ s.holds d := fun hin => by
    obtain hc | hs := hholds t ht
    · exact hd (h.unique d c t hin hc)
    · exact ((h.cores d).status hin).2 hs
  refine ⟨fun t u ht hu => (h.apart t u (hpresent t ht) (hpresent u hu)).congr (hstack t).2
      (hstack t).1 (hstack u).2 (hstack u).1, fun t ht => ?_, fun d => ?_,
    fun d e t hd he => ?_, fun t ht => ?_⟩
  · rw [(hstack t).1, (hstack t).2]
    obtain heq | hfit := hfits t ht
    · rw [heq] at ht ⊢
      exact h.fits t ht
    · exact hfit
  · by_cases hd : d = c
    · exact hd ▸ hself
    · have hout (t : Nat) (ht : t ∈ s.holds d) : t ∉ s.holds c := fun hin =>
        hd (h.unique d c t ht hin)
      exact (h.cores d).congr (fun t ht => (h.fits t ht).1) (hothers d hd).1 (hothers d hd).2
        (fun t ht => hthread t (hout t ht) ((h.cores d).status ht).2)
        fun t ht hfrozen a ha => hmem t hfrozen (hout t ht) a ha
  · by_cases hdc : d = c
    · by_cases hec : e = c
      · rw [hdc, hec]
      · rw [hdc] at hd
        rw [hsame e hec] at he
        exact absurd he (hfree e hec t hd)
    · rw [hsame d hdc] at hd
      by_cases hec : e = c
      · rw [hec] at he
        exact absurd hd (hfree d hdc t he)
      · rw [hsame e hec] at he
        exact h.unique d e t hd he
  · obtain ⟨heq,hout⟩ | hp := hparked t ht
    · rw [heq] at ht ⊢
      have hfrozen : (s.thread t).status.frozen = true := by rw [ht]; rfl
      exact (h.parked t ht).congr (Nat.le_of_add_left_le (h.fits t hfrozen).1) (hmem t hfrozen hout)
    · exact hp

/-- The state after a call of `context_switch_`. -/
def State.call (s : State κ) (c : κ) : State κ :=
  let prev := s.regs c .fs
  let next := s.regs c .rdi
  { s with
    phase := update s.phase c (.switching prev next Assembly.contextSwitch)
    thread := update (update s.thread prev
        { s.thread prev with status := .leaving, left := resumption (s.core c) }) next
      { s.thread next with status := .entering } }

theorem call_thread (hne : s.regs c .rdi ≠ s.regs c .fs) :
    (s.call c).thread (s.regs c .fs) =
      { s.thread (s.regs c .fs) with status := .leaving, left := resumption (s.core c) } ∧
    (s.call c).thread (s.regs c .rdi) = { s.thread (s.regs c .rdi) with status := .entering } ∧
    ∀ t, t ≠ s.regs c .fs → t ≠ s.regs c .rdi → (s.call c).thread t = s.thread t := by
  refine ⟨?_, update_self .., fun t hfs hrdi => ?_⟩
  · exact (update_of_ne hne.symm _ _).trans (update_self ..)
  · exact (update_of_ne hrdi _ _).trans (update_of_ne hfs _ _)

theorem Inv.call (h : Inv s) (hc : s.phase c = .run)
    (hnext : (s.thread (s.regs c .rdi)).status = .suspended)
    (hlow : (s.thread (s.regs c .fs)).theStack+72 ≤ s.regs c .rsp)
    (hhigh : s.regs c .rsp+8 ≤ (s.thread (s.regs c .fs)).stackBottom) : Inv (s.call c) := by
  have hprev : (s.thread (s.regs c .fs)).status = .running := by
    have := h.cores c
    unfold CoreInv at this
    simpa only [hc] using this
  have hne : s.regs c .rdi ≠ s.regs c .fs := fun heq => by
    rw [heq, hprev] at hnext
    cases hnext
  obtain ⟨hfs,hrdi,hother⟩ := call_thread hne
  have hholds : s.holds c = [s.regs c .fs] := by
    unfold State.holds
    simp only [hc]
  have hphase : (s.call c).phase c =
      .switching (s.regs c .fs) (s.regs c .rdi) Assembly.contextSwitch := update_self ..
  have hout (t : Nat) (ht : t ∉ s.holds c) : t ≠ s.regs c .fs := by
    rwa [hholds, List.mem_singleton] at ht
  have hself := (h.apart (s.regs c .fs) (s.regs c .fs) (by rw [hprev]; decide)
    (by rw [hprev]; decide)).cell
  have hcross := (h.apart (s.regs c .rdi) (s.regs c .fs) (by rw [hnext]; decide)
    (by rw [hprev]; decide)).cell
  obtain ⟨hsaved,hframe⟩ := h.parked _ hnext
  have hfits := h.fits (s.regs c .rdi) (by rw [hnext]; rfl)
  have hcases (t : Nat) {P : Prop} (hp : t = s.regs c .fs → P) (hn : t = s.regs c .rdi → P)
      (ho : (s.call c).thread t = s.thread t → P) : P := by
    by_cases htn : t = s.regs c .rdi
    · exact hn htn
    · by_cases htp : t = s.regs c .fs
      · exact hp htp
      · exact ho (hother t htp htn)
  refine h.change c (fun d hd => ⟨update_of_ne hd _ _, rfl⟩) (fun t ht hs => ?_) (fun t => ?_)
    (fun t ht => ?_) (fun t ht => ?_) (fun _ _ _ _ _ => rfl) (fun t ht => ?_) ?_ fun t ht => ?_
  · exact hother t (hout t ht) fun heq => hs (heq ▸ hnext)
  · refine hcases t ?_ ?_ fun heq => by rw [heq]; exact ⟨rfl, rfl⟩
    · rintro rfl
      rw [hfs]
      exact ⟨rfl, rfl⟩
    · rintro rfl
      rw [hrdi]
      exact ⟨rfl, rfl⟩
  · refine hcases t ?_ ?_ fun heq => heq ▸ ht
    · rintro rfl
      rw [hprev]
      decide
    · rintro rfl
      rw [hnext]
      decide
  · refine hcases t ?_ ?_ .inl
    · rintro rfl
      refine .inr ?_
      rw [hfs]
      dsimp only
      rw [resumption, update_self]
      exact ⟨by change _ ≤ s.regs c .rsp+8; omega, hhigh⟩
    · rintro rfl
      rw [hrdi]
      exact .inr hfits
  · unfold State.holds at ht ⊢
    simp only [hphase, hc, List.mem_cons, List.not_mem_nil, or_false] at ht ⊢
    obtain heq | rfl := ht
    · exact .inl heq
    · exact .inr hnext
  · unfold CoreInv
    simp only [hphase, hfs, hrdi]
    refine ⟨trivial, trivial, by decide, s.core c, [], s.regs c .rsp,
      (s.thread (s.regs c .rdi)).left .rsp-80, rfl, ⟨⟨rfl, rfl, rfl, hsaved, ?_, hne, ?_, ?_⟩, ?_,
        ?_, ?_⟩, .refl⟩
    · omega
    · omega
    · omega
    · rw [hfs]
    · rw [hrdi]
      dsimp only
      omega
    · rw [hrdi]
      exact hframe
  · refine hcases t ?_ ?_ fun heq => .inl ⟨heq, fun hin => ?_⟩
    · rintro rfl
      rw [hfs] at ht
      cases ht
    · rintro rfl
      rw [hrdi] at ht
      cases ht
    · rw [hholds, List.mem_singleton] at hin
      rw [heq, hin, hprev] at ht
      cases ht

/-- The state after the next instruction of `context_switch_`. -/
def State.exec (s : State κ) (c : κ) (i : Instr Reg) : State κ :=
  let core := StackCode.step .rsp (s.core c) i
  { s with regs := update s.regs c core.reg, mem := core.mem }

theorem exec_core {i : Instr Reg} : (s.exec c i).core c = StackCode.step .rsp (s.core c) i := by
  simp only [State.core, State.exec, update_self]

/-- An instruction of `context_switch_` writes only where its caller comes back from. -/
theorem Inv.exec_mem (h : Inv s) {i : Instr Reg} {rest : List (Instr Reg)}
    (hc : s.phase c = .switching prev next (i :: rest)) (ht : (s.thread t).status.frozen = true)
    (hout : t ≠ prev) (ha : (s.thread t).Guards t a) : (s.exec c i).mem a = s.mem a := by
  have hcore := h.cores c
  unfold CoreInv at hcore
  simp only [hc] at hcore
  obtain ⟨hprev,-,-,start,done,p,q,hcode,hbegan,halong⟩ := hcore
  refine step_frame fun hw => ?_
  refine h.guards_apart ht (by rw [hprev]; rfl) hout ha
    (hbegan.guards_writes (hcode.trans (List.append_nil _).symm)
      (.inr (halong.mem_allWrites hw)))

theorem Inv.tick (h : Inv s) {i : Instr Reg} {rest : List (Instr Reg)} (hrest : rest ≠ [])
    (hc : s.phase c = .switching prev next (i :: rest)) :
    Inv { s.exec c i with phase := update s.phase c (.switching prev next rest) } := by
  have hcore := h.cores c
  unfold CoreInv at hcore
  simp only [hc] at hcore
  obtain ⟨hprev,hnext,-,start,done,p,q,hcode,hbegan,halong⟩ := hcore
  have hholds : s.holds c = [prev, next] := by
    unfold State.holds
    simp only [hc]
  have hself : CoreInv
      { s.exec c i with phase := update s.phase c (.switching prev next rest) } c := by
    unfold CoreInv
    simp only [update_self]
    refine ⟨hprev, hnext, hrest, start, done ++ [i], p, q, by rw [hcode, List.append_assoc]; rfl,
      ⟨hbegan.calls, hbegan.left, hbegan.saved, hbegan.frame⟩, ?_⟩
    exact exec_core (s := s) ▸ halong.tick
  refine h.change c (fun d hd => ⟨update_of_ne hd _ _, update_of_ne hd _ _⟩) (fun _ _ _ => rfl)
    (fun _ => ⟨rfl, rfl⟩) (fun _ ht => ht) (fun _ _ => .inl rfl) (fun t ht hout a ha => ?_)
    (fun t ht => ?_) hself fun t ht => .inl ⟨rfl, fun hin => ?_⟩
  · exact h.exec_mem hc ht (fun heq => hout (hholds ▸ heq ▸ List.mem_cons_self)) ha
  · unfold State.holds at ht ⊢
    simp only [update_self, hc] at ht ⊢
    exact .inl ht
  · exact ((h.cores c).status hin).2 ht

omit [DecidableEq κ] in
theorem Began.parked {start core : Core} {p q : Nat} (h : Began s start prev next p q)
    (hover : Saved start (Assembly.exec Assembly.contextSwitch start))
    (halong : Along .rsp (· = p) start Assembly.contextSwitch [] core) :
    Parked (s.thread prev) prev core.mem := by
  obtain ⟨hcell,hcells⟩ := h.calls.mem_allWrites
  obtain ⟨hframe,hsaved,-⟩ := hover
  rw [h.calls.rsp] at hframe hsaved
  rw [h.calls.fs] at hsaved
  have hroom := h.calls.room
  have hbase : (s.thread prev).left .rsp-80 = p-72 := by
    rw [h.left_rsp]
    omega
  have hsame (i : Nat) (hi : i < 10) : core.mem (p-72+8*i) =
      (Assembly.exec Assembly.contextSwitch start).mem (p-72+8*i) := by
    by_cases h9 : i = 9
    · exact halong.mem _ (.inl (by omega))
    · refine halong.mem _ (.inr (.inl ?_))
      have hk := hcells (8-i) (by omega)
      rwa [show p-8*(8-i+1) = p-72+8*i by omega] at hk
  have hne : ∀ r ∈ Assembly.frame, r ≠ .rsp := by decide
  refine ⟨?_, ?_⟩
  · rw [halong.mem _ (.inr (.inl hcell)), hbase]
    exact hsaved
  · rw [hbase]
    refine (hframe.copy (b := p-72) fun i hi => hsame i hi).congr (fun _ _ _ => rfl) fun r hr => ?_
    rw [h.left, resumption, update_of_ne (hne r hr)]

/-- The state after the last instruction of `context_switch_`. -/
def State.finish (s : State κ) (c : κ) (i : Instr Reg) (prev next : Nat) : State κ :=
  { (s.exec c i).setStatus next .running with phase := update s.phase c (.switched prev) }

theorem finish_thread (s : State κ) (c : κ) (i : Instr Reg) (prev next : Nat) :
    (s.finish c i prev next).thread next = { s.thread next with status := .running } ∧
    ∀ t ≠ next, (s.finish c i prev next).thread t = s.thread t :=
  ⟨update_self .., fun _ ht => update_of_ne ht _ _⟩

theorem Inv.finish (h : Inv s) {i : Instr Reg} (hc : s.phase c = .switching prev next [i]) :
    Inv (s.finish c i prev next) := by
  have hcore := h.cores c
  unfold CoreInv at hcore
  simp only [hc] at hcore
  obtain ⟨hprev,hnext,-,start,done,p,q,hcode,hbegan,halong⟩ := hcore
  have hholds : s.holds c = [prev, next] := by
    unfold State.holds
    simp only [hc]
  have hne := hbegan.calls.ne
  have hfits := h.fits prev (by rw [hprev]; rfl)
  have hfits' := h.fits next (by rw [hnext]; rfl)
  have hpresent : (s.thread prev).status ≠ .absent ∧ (s.thread next).status ≠ .absent := by
    rw [hprev, hnext]
    decide
  have hapart := h.apart prev next hpresent.1 hpresent.2
  have hstacks := hapart.theStacks hne.symm
  have hcell := hapart.cell
  have halong' := halong.tick
  rw [← hcode] at halong'
  have hleft := hbegan.left_rsp
  have hsaved := hbegan.saved
  obtain ⟨hresumed,hrsp,hover⟩ := hbegan.calls.over hbegan.frame (by omega) (by omega)
  obtain ⟨hself,hother⟩ := finish_thread s c i prev next
  have hcore' : (s.finish c i prev next).core c = StackCode.step .rsp (s.core c) i := exec_core
  have hregs : (s.finish c i prev next).regs c =
      (Assembly.exec Assembly.contextSwitch start).reg :=
    (congrArg Cpu.reg hcore').trans halong'.reg
  have hphase : (s.finish c i prev next).phase c = .switched prev := update_self ..
  have hfs : (s.finish c i prev next).regs c .fs = next := by rw [hregs, hresumed.fs]
  have hmem : (s.finish c i prev next).mem = (StackCode.step .rsp (s.core c) i).mem := rfl
  have hcoreInv : CoreInv (s.finish c i prev next) c := by
    unfold CoreInv
    simp only [hphase, hfs, hself, hother prev hne.symm]
    refine ⟨trivial, hprev, hmem ▸ hbegan.parked hover halong', ?_⟩
    have hnow : (s.finish c i prev next).regs c .rsp = (s.thread next).left .rsp := by
      rw [hregs, hrsp, hsaved]
    have hreg : ((s.finish c i prev next).core c).reg =
      (Assembly.exec Assembly.contextSwitch start).reg := hregs
    refine ⟨?_, ?_, ?_⟩ <;> rw [hfs, hself]
    · exact ⟨hreg ▸ hresumed.kept, hreg ▸ hresumed.fs, hreg ▸ hresumed.prev⟩
    · exact hnow
    · rw [hnow]
      exact hfits'.2
  refine h.change c (fun d hd => ⟨update_of_ne hd _ _, update_of_ne hd _ _⟩) (fun t ht _ => ?_)
    (fun t => ?_) (fun t ht => ?_) (fun t ht => ?_) (fun t ht hout a ha => ?_)
    (fun t ht => ?_) hcoreInv fun t ht => ?_
  · rw [hholds] at ht
    exact hother t fun heq => ht (heq ▸ List.mem_cons_of_mem _ List.mem_cons_self)
  · by_cases ht : t = next
    · subst ht
      rw [hself]
      exact ⟨rfl, rfl⟩
    · rw [hother t ht]
      exact ⟨rfl, rfl⟩
  · by_cases htn : t = next
    · exact htn ▸ hpresent.2
    · exact (hother t htn) ▸ ht
  · by_cases htn : t = next
    · subst htn
      rw [hself] at ht
      cases ht
    · exact .inl (hother t htn)
  · exact h.exec_mem hc ht (fun heq => hout (hholds ▸ heq ▸ List.mem_cons_self)) ha
  · refine .inl ?_
    unfold State.holds at ht
    simp only [hphase, hfs, List.mem_cons, List.not_mem_nil, or_false] at ht
    rw [hholds, List.mem_cons, List.mem_singleton]
    exact ht.symm
  · by_cases htn : t = next
    · subst htn
      rw [hself] at ht
      cases ht
    · refine .inl ⟨hother t htn, fun hin => ?_⟩
      rw [hother t htn] at ht
      exact ((h.cores c).status hin).2 ht

/-- The state after `post_switch`. -/
def State.post (s : State κ) (c : κ) (prev : Nat) : State κ :=
  { s.setStatus prev .suspended with phase := update s.phase c .run }

theorem post_thread (s : State κ) (c : κ) (prev : Nat) :
    (s.post c prev).thread prev = { s.thread prev with status := .suspended } ∧
    ∀ t ≠ prev, (s.post c prev).thread t = s.thread t :=
  ⟨update_self .., fun _ ht => update_of_ne ht _ _⟩

theorem Inv.post (h : Inv s) (hc : s.phase c = .switched prev) : Inv (s.post c prev) := by
  have hcore := h.cores c
  unfold CoreInv at hcore
  simp only [hc] at hcore
  obtain ⟨hfs,hprev,hparked,-⟩ := hcore
  have hholds : s.holds c = [s.regs c .fs, prev] := by
    unfold State.holds
    simp only [hc]
  obtain ⟨hself,hother⟩ := post_thread s c prev
  have hne : s.regs c .fs ≠ prev := fun heq => by
    rw [heq, hprev] at hfs
    cases hfs
  have hphase : (s.post c prev).phase c = .run := update_self ..
  have hregs : (s.post c prev).regs c = s.regs c := rfl
  refine h.change c (fun d hd => ⟨update_of_ne hd _ _, rfl⟩) (fun t ht _ => ?_)
    (fun t => ?_) (fun t ht => ?_) (fun t ht => ?_) (fun _ _ _ _ _ => rfl)
    (fun t ht => ?_) ?_ fun t ht => ?_
  · rw [hholds] at ht
    exact hother t fun heq => ht (heq ▸ List.mem_cons_of_mem _ List.mem_cons_self)
  · by_cases ht : t = prev
    · subst ht
      rw [hself]
      exact ⟨rfl, rfl⟩
    · rw [hother t ht]
      exact ⟨rfl, rfl⟩
  · by_cases htp : t = prev
    · rw [htp, hprev]
      decide
    · exact (hother t htp) ▸ ht
  · by_cases htp : t = prev
    · subst htp
      rw [hself]
      exact .inr (h.fits t (by rw [hprev]; rfl))
    · exact .inl (hother t htp)
  · unfold State.holds at ht
    simp only [hphase, hregs, List.mem_singleton] at ht
    exact .inl (ht ▸ hholds ▸ List.mem_cons_self)
  · unfold CoreInv
    simp only [hphase, hregs, hother _ hne]
    exact hfs
  · by_cases htp : t = prev
    · subst htp
      rw [hself]
      exact .inr ⟨hparked.saved, hparked.frame⟩
    · refine .inl ⟨hother t htp, fun hin => ?_⟩
      rw [hother t htp] at ht
      exact ((h.cores c).status hin).2 ht

section
variable {mem : Nat → Nat} {tcb stack entry commonCr3 : Nat}

theorem makeStack_frame (ha : a < stack ∨ stack+8*stackQuads ≤ a) (hcell : a ≠ tcb+savedRsp) :
    makeStack mem tcb stack entry commonCr3 a = mem a := by
  have hne (k : Nat) (hk : k < stackQuads) : a ≠ stack+8*k := by omega
  simp only [makeStack, List.foldl_cons, List.foldl_nil]
  rw [update_of_ne hcell]
  iterate 10 rw [update_of_ne (hne _ (by decide))]

theorem parked_fresh (hcell : tcb+savedRsp < stack ∨ stack+8*stackQuads ≤ tcb+savedRsp) :
    Parked ⟨.suspended, stack, stack+8*stackQuads, fresh stack entry commonCr3⟩ tcb
      (makeStack mem tcb stack entry commonCr3) := by
  have hne (k : Nat) (hk : k < 16384) : stack+k ≠ tcb+savedRsp := by
    have : 8*stackQuads = 16384 := rfl
    omega
  have hbase : stack+8*stackQuads-80 = stack+16304 := by
    have : 8*stackQuads = 16384 := rfl
    omega
  constructor
  · change _ = stack+8*stackQuads-80
    rw [hbase]
    exact update_self ..
  · change Lies _ _ (stack+8*stackQuads-80) frame
    rw [hbase]
    simp [Lies, frame, fresh, makeStack, stackQuads, Nat.add_assoc, hne]

/-- The thread `make_thread` makes. -/
def newThread (stack entry commonCr3 : Nat) : Thread :=
  ⟨.suspended, stack, stack+8*stackQuads, fresh stack entry commonCr3⟩

omit [DecidableEq κ] in
theorem Inv.makeThread (h : Inv s) (htcb : (s.thread tcb).status = .absent)
    (hself : Apart tcb tcb (newThread stack entry commonCr3) (newThread stack entry commonCr3))
    (hothers : ∀ u, (s.thread u).status ≠ .absent →
      Apart tcb u (newThread stack entry commonCr3) (s.thread u) ∧
        Apart u tcb (s.thread u) (newThread stack entry commonCr3)) :
    Inv { s with
      mem := makeStack s.mem tcb stack entry commonCr3
      thread := update s.thread tcb (newThread stack entry commonCr3) } := by
  have hmem (t : Nat) (ht : (s.thread t).status.frozen = true) (a : Nat)
      (ha : (s.thread t).Guards t a) : makeStack s.mem tcb stack entry commonCr3 a = s.mem a := by
    have hpresent : (s.thread t).status ≠ .absent := fun hs => by rw [hs] at ht; cases ht
    have hne : t ≠ tcb := fun heq => hpresent (heq ▸ htcb)
    have hfits := h.fits t ht
    obtain ⟨htu,hut⟩ := hothers t hpresent
    have hstacks : stack+8*stackQuads ≤ (s.thread t).theStack ∨
      (s.thread t).stackBottom ≤ stack := htu.theStacks hne.symm
    have hcell := htu.cell
    have hcell' : t+savedRsp < stack ∨ stack+8*stackQuads ≤ t+savedRsp := hut.cell
    obtain rfl | ha := ha
    · exact makeStack_frame hcell' fun heq => hne (Nat.add_right_cancel heq)
    · exact makeStack_frame (by omega) (by omega)
  have hthread (t : Nat) (ht : t ≠ tcb) :
      update s.thread tcb (newThread stack entry commonCr3) t = s.thread t := update_of_ne ht _ _
  have hnew : update s.thread tcb (newThread stack entry commonCr3) tcb =
      newThread stack entry commonCr3 := update_self ..
  refine ⟨fun t u ht hu => ?_, fun t ht => ?_, fun d => ?_, h.unique, fun t ht => ?_⟩
  · dsimp only at ht hu ⊢
    by_cases htt : t = tcb
    · subst htt
      by_cases htu : u = t
      · subst htu
        rw [hnew]
        exact hself
      · rw [hthread u htu] at hu ⊢
        rw [hnew]
        exact (hothers u hu).1
    · rw [hthread t htt] at ht ⊢
      by_cases htu : u = tcb
      · subst htu
        rw [hnew]
        exact (hothers t ht).2
      · rw [hthread u htu] at hu ⊢
        exact h.apart t u ht hu
  · dsimp only at ht ⊢
    by_cases htt : t = tcb
    · subst htt
      rw [hnew]
      change stack+80 ≤ stack+8*stackQuads ∧ stack+8*stackQuads ≤ stack+8*stackQuads
      exact ⟨Nat.add_le_add_left (by decide) _, Nat.le_refl _⟩
    · rw [hthread t htt] at ht ⊢
      exact h.fits t ht
  · refine (h.cores d).congr (fun t ht => (h.fits t ht).1) rfl rfl (fun t ht => hthread t ?_)
      fun t _ hfrozen a ha => hmem t hfrozen a ha
    rintro rfl
    exact ((h.cores d).status ht).1 htcb
  · dsimp only at ht ⊢
    by_cases htt : t = tcb
    · subst htt
      rw [hnew]
      exact parked_fresh hself.cell
    · rw [hthread t htt] at ht ⊢
      have hfrozen : (s.thread t).status.frozen = true := by rw [ht]; rfl
      exact (h.parked t ht).congr (Nat.le_of_add_left_le (h.fits t hfrozen).1) (hmem t hfrozen)

omit [DecidableEq κ] in
theorem Inv.dealloc (h : Inv s) (htcb : (s.thread tcb).status = .suspended) :
    Inv (s.setStatus tcb .absent) := by
  have hself : (s.setStatus tcb .absent).thread tcb = { s.thread tcb with status := .absent } :=
    update_self ..
  have hother (t : Nat) (ht : t ≠ tcb) : (s.setStatus tcb .absent).thread t = s.thread t :=
    update_of_ne ht _ _
  have hpresent (t : Nat) (ht : ((s.setStatus tcb .absent).thread t).status ≠ .absent) :
      t ≠ tcb := by
    rintro rfl
    rw [hself] at ht
    exact ht rfl
  refine ⟨fun t u ht hu => ?_, fun t ht => ?_, fun d => ?_, h.unique, fun t ht => ?_⟩
  · have htt := hother t (hpresent t ht)
    have huu := hother u (hpresent u hu)
    rw [htt] at ht ⊢
    rw [huu] at hu ⊢
    exact h.apart t u ht hu
  · have hne := hpresent t fun hs => by rw [hs] at ht; cases ht
    rw [hother t hne] at ht ⊢
    exact h.fits t ht
  · refine (h.cores d).congr (fun t ht => (h.fits t ht).1) rfl rfl (fun t ht => hother t ?_)
      fun _ _ _ _ _ => rfl
    rintro rfl
    exact ((h.cores d).status ht).2 htcb
  · have hne := hpresent t fun hs => by rw [hs] at ht; cases ht
    rw [hother t hne] at ht ⊢
    exact h.parked t ht

end

theorem Inv.step {action : Action κ} (h : Inv s) (htame : Tame s action)
    (hs : Contexts.step s action = some s') : Inv s' := by
  cases action with
  | compute c regs mem =>
    simp only [Contexts.step] at hs
    split at hs <;> cases hs
    exact h.compute ‹_› htame.1 htame.2
  | interrupt c mem =>
    simp only [Contexts.step] at hs
    split at hs <;> cases hs
    all_goals exact h.interrupt (by rw [‹s.phase c = _›]; nofun) htame
  | contextSwitch c =>
    simp only [Contexts.step] at hs
    split at hs <;> cases hs
    exact h.call ‹_› htame.1 htame.2.1 htame.2.2
  | tick c =>
    simp only [Contexts.step] at hs
    split at hs
    · rename_i prev next i rest hc
      split at hs <;> cases hs
      · exact h.finish hc
      · exact h.tick ‹_› hc
    · cases hs
  | postSwitch c =>
    simp only [Contexts.step] at hs
    split at hs <;> cases hs
    exact h.post ‹_›
  | makeThread tcb stack entry commonCr3 =>
    cases hs
    exact h.makeThread htame.1 htame.2.1 htame.2.2
  | dealloc tcb =>
    cases hs
    exact h.dealloc htame

theorem inv_invariant : ((machine κ).under Tame).Invariant Inv where
  init := by
    rintro s ⟨hrun,hdistinct,hlive,hapart⟩
    have hnone (t : Nat) : (s.thread t).status.frozen ≠ true ∧
        (s.thread t).status ≠ .suspended := by
      obtain h | h := hlive t
      all_goals
        rw [h]
        decide
    have hholds (c : κ) : s.holds c = [s.regs c .fs] := by
      unfold State.holds
      simp only [(hrun c).1]
    refine ⟨hapart, fun t ht => absurd ht (hnone t).1, fun c => ?_, fun c d t hc hd => ?_,
      fun t ht => absurd ht (hnone t).2⟩
    · unfold CoreInv
      simp only [(hrun c).1]
      exact (hrun c).2
    · rw [hholds, List.mem_singleton] at hc hd
      exact hdistinct c d (hc.symm.trans hd)
  step := fun _ _ h ⟨_,htame,hs⟩ => h.step htame hs

/-- What a thread was left with is set where it calls `context_switch_` and where it is made. -/
theorem left_step {action : Action κ} (hs : step s action = some s') (t : Nat) :
    (s'.thread t).left = (s.thread t).left ∨
    (∃ c, action = .contextSwitch c ∧ s.regs c .fs = t ∧
      (s'.thread t).left = resumption (s.core c)) ∨
    ∃ stack entry commonCr3, action = .makeThread t stack entry commonCr3 ∧
      (s'.thread t).left = fresh stack entry commonCr3 := by
  have hstatus (u : Nat) (status : Status) :
      ((s.setStatus u status).thread t).left = (s.thread t).left := by
    change (update s.thread u _ t).left = _
    by_cases h : t = u
    · subst h
      rw [update_self]
    · rw [update_of_ne h]
  cases action with
  | compute | interrupt =>
    simp only [step] at hs
    split at hs <;> cases hs
    all_goals exact .inl rfl
  | contextSwitch c =>
    simp only [step] at hs
    split at hs <;> cases hs
    change ((s.call c).thread t).left = _ ∨
      (∃ c', _ ∧ _ ∧ ((s.call c).thread t).left = resumption (s.core c')) ∨ _
    by_cases hn : t = s.regs c .rdi
    · subst hn
      have hnext : (s.call c).thread (s.regs c .rdi) =
        { s.thread (s.regs c .rdi) with status := .entering } := update_self ..
      exact .inl (by rw [hnext])
    · have hout : (s.call c).thread t = update s.thread (s.regs c .fs)
          { s.thread (s.regs c .fs) with status := .leaving, left := resumption (s.core c) } t :=
        update_of_ne hn _ _
      rw [hout]
      by_cases hp : t = s.regs c .fs
      · subst hp
        exact .inr (.inl ⟨c, rfl, rfl, by rw [update_self]⟩)
      · exact .inl (by rw [update_of_ne hp])
  | tick c =>
    simp only [step] at hs
    split at hs
    · split at hs <;> cases hs
      · exact .inl (hstatus _ _)
      · exact .inl rfl
    · cases hs
  | postSwitch c =>
    simp only [step] at hs
    split at hs <;> cases hs
    exact .inl (hstatus _ _)
  | makeThread tcb stack entry commonCr3 =>
    cases hs
    by_cases h : t = tcb
    · subst h
      exact .inr (.inr ⟨stack, entry, commonCr3, rfl, by simp only [update_self]⟩)
    · exact .inl (by simp only [update_of_ne h])
  | dealloc tcb =>
    cases hs
    exact .inl (hstatus _ _)

/-- In every run a thread that comes back from `context_switch_`, or starts, finds the registers
it was left with, its own stack, and in `rax` and `rdi` the thread that ran before it. -/
theorem contexts_kept (s : State κ) (h : ((machine κ).under Tame).Reachable s) :
    (∀ c prev, s.phase c = .switched prev → Back s c prev) ∧
    (∀ t, (s.thread t).status = .suspended → Parked (s.thread t) t s.mem) ∧
    ∀ action s', step s action = some s' → ∀ t, (s'.thread t).left = (s.thread t).left ∨
      (∃ c, action = .contextSwitch c ∧ s.regs c .fs = t ∧
        (s'.thread t).left = resumption (s.core c)) ∨
      ∃ stack entry commonCr3, action = .makeThread t stack entry commonCr3 ∧
        (s'.thread t).left = fresh stack entry commonCr3 := by
  have hinv := inv_invariant.reachable h
  refine ⟨fun c prev hc => ?_, hinv.parked, fun _ _ hs => left_step hs⟩
  have hcore := hinv.cores c
  unfold CoreInv at hcore
  simp only [hc] at hcore
  exact hcore.2.2.2

/-- Core `false` runs the thread at 1000 and will switch to the one at 3000, core `true` runs the
one at 2000 and will switch to the one at 1000. -/
def twoCores : State Bool where
  regs c
    | .fs => if c then 2000 else 1000
    | .rdi => if c then 1000 else 3000
    | .rsp => if c then 35000 else 15000
    | .rbx => if c then 7 else 5
    | _ => 0
  mem _ := 0
  phase _ := .run
  thread t :=
    if t = 1000 then ⟨.running, 10000, 20000, fun _ => 0⟩
    else if t = 2000 then ⟨.running, 30000, 40000, fun _ => 0⟩
    else ⟨.absent, 0, 0, fun _ => 0⟩

def handOver : List (Action Bool) := List.replicate 29 (.tick false) ++ [.postSwitch false]

/-- The thread at 1000 leaves core `false` and comes back on core `true`. -/
def takeOver : List (Action Bool) :=
  [.makeThread 3000 50000 77 0, .contextSwitch false] ++
    (handOver ++ ([.contextSwitch true] ++ List.replicate 29 (.tick true)))

theorem twoCores_thread (t : Nat) : (twoCores.thread t).status ≠ .absent →
    t = 1000 ∧ twoCores.thread t = ⟨.running, 10000, 20000, fun _ => 0⟩ ∨
    t = 2000 ∧ twoCores.thread t = ⟨.running, 30000, 40000, fun _ => 0⟩ := by
  unfold twoCores
  dsimp only
  split
  · exact fun _ => .inl ⟨‹_›, rfl⟩
  · split
    · exact fun _ => .inr ⟨‹_›, rfl⟩
    · exact fun h => absurd rfl h

theorem twoCores_init : (machine Bool).Init twoCores := by
  refine ⟨by decide, by decide, fun t => ?_, fun t u ht hu => ?_⟩
  · by_cases h : (twoCores.thread t).status = .absent
    · exact .inl h
    · obtain ⟨-,h⟩ | ⟨-,h⟩ := twoCores_thread t h
      all_goals exact .inr (by rw [h])
  · obtain ⟨rfl,ht⟩ | ⟨rfl,ht⟩ := twoCores_thread t ht
    all_goals
      obtain ⟨rfl,hu⟩ | ⟨rfl,hu⟩ := twoCores_thread u hu
      all_goals
        rw [ht]
        try rw [hu]
        exact ⟨by decide, by decide⟩

theorem allowed_ticks (s : State Bool) (c : Bool) (n : Nat) :
    (machine Bool).Allowed Tame s (List.replicate n (.tick c)) := by
  induction n generalizing s with
  | zero => trivial
  | succ n ih => exact ⟨trivial, ih _⟩

theorem takeOver_allowed : (machine Bool).Allowed Tame twoCores takeOver := by
  rw [takeOver, handOver]
  simp only [Machine.allowed_append]
  refine ⟨⟨⟨by decide, ⟨by decide, by decide⟩, fun u hu => ?_⟩,
    ⟨by decide +kernel, by decide +kernel, by decide +kernel⟩, trivial⟩,
    ⟨allowed_ticks .., trivial, trivial⟩,
    ⟨⟨by decide +kernel, by decide +kernel, by decide +kernel⟩, trivial⟩, allowed_ticks ..⟩
  obtain ⟨rfl,h⟩ | ⟨rfl,h⟩ := twoCores_thread u hu
  all_goals
    rw [h]
    exact ⟨⟨by decide, by decide⟩, by decide, by decide⟩

/-- The thread at 1000 waits after 32 steps and is back in the end. -/
theorem contexts_kept_twoCores :
    Parked (((machine Bool).run twoCores (takeOver.take 32)).thread 1000) 1000
        ((machine Bool).run twoCores (takeOver.take 32)).mem ∧
      Back ((machine Bool).run twoCores takeOver) true 2000 ∧
      ((machine Bool).run twoCores takeOver).regs true .fs = 1000 ∧
      ((machine Bool).run twoCores takeOver).regs true .rbx = 5 := by
  have hallowed := takeOver_allowed
  rw [← List.take_append_drop 32 takeOver, Machine.allowed_append] at hallowed
  have hwaits : ((machine Bool).under Tame).Reachable
      ((machine Bool).run twoCores (takeOver.take 32)) :=
    Machine.reachable_run (.init twoCores_init) hallowed.1
  have hback : ((machine Bool).under Tame).Reachable ((machine Bool).run twoCores takeOver) :=
    Machine.reachable_run (.init twoCores_init) takeOver_allowed
  exact ⟨(contexts_kept _ hwaits).2.1 1000 (by decide +kernel),
    (contexts_kept _ hback).1 true 2000 (by decide +kernel), by decide +kernel, by decide +kernel⟩

end NetKernel.Contexts
