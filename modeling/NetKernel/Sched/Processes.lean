import Mathlib.Data.List.Nodup
import NetKernel.Lib.Runs

/-! `fork`, `exit` and `waitpid` by any number of processes. Each process has one thread, and
one step is a section under a lock or what a thread does between two of them. -/
namespace NetKernel.Processes
open Function Runs

/-- `Future`: `set` fills both words under its lock, and `get` reads the value after it has
left the lock. -/
structure Future (α : Type) where
  ready : Bool
  value : α

def Future.set {α : Type} (_ : Future α) (v : α) : Future α := ⟨true, v⟩

structure Process where
  pid : Int32
  parent : Option Nat
  /-- `first_child` and the `next_sibling` links from there. -/
  children : List Nat
  waited : Bool
  exitStatus : Future Nat
  stopped : Future Bool

def Process.new (pid : Int32) (parent : Option Nat) : Process :=
  ⟨pid, parent, [], false, ⟨false, 0⟩, ⟨false, false⟩⟩

/-- The process table. Objects are numbered as they are made and are never freed;
`processes` is the list of all of them. -/
structure Table where
  made : Nat
  process : Nat → Process
  processes : List Nat
  nextPid : Int32

inductive Pc where
  | unborn
  | born
  | user
  | forkLink (child : Nat)
  | forkCreate (child : Nat)
  | forkSync (child : Nat)
  | fini
  | stopping
  | gone
  | waitLock (pid : Int32) (status : Bool)
  | waitExit (child : Nat) (pid : Int32) (status : Bool)
  | waitRead (child : Nat) (pid : Int32) (status : Bool)
  | waitStopped (child : Nat) (pid : Int32) (status : Bool) (value : Nat)
deriving DecidableEq

/-- What a process asks for. A status pointer that is not null comes with the answer of
`user_buffer_ok`. -/
inductive Call where
  | fork
  | exit (code : UInt64)
  | waitpid (pid : Int32) (status : Option Bool) (options : UInt64)

/-- A `waitpid` that has returned: the child and the status it stored, or -1. -/
structure Return where
  caller : Nat
  pid : Int32
  outcome : Option (Nat × Option Nat)

/-- `code` keeps what each process passed to `exit`, and `returns` the calls of `waitpid` that
have returned; the source has neither. `forked` is the latch of the fork of each child. -/
structure Kernel where
  table : Table
  pc : Nat → Pc
  forked : Nat → Bool
  code : Nat → Option UInt64
  returns : List Return

/-- `int(frame->rdi & 0xff) << 8`. -/
def waitStatus (code : UInt64) : Nat := (code.toNat &&& 0xff) <<< 8

def Table.modify (t : Table) (i : Nat) (f : Process → Process) : Table :=
  { t with process := update t.process i (f (t.process i)) }

def Table.findChild (t : Table) (parent : Nat) (pid : Int32) : Option Nat :=
  (t.process parent).children.find? fun c => (t.process c).pid == pid

def Kernel.goto (s : Kernel) (i : Nat) (pc : Pc) : Kernel := { s with pc := update s.pc i pc }

/-- The first part of `fork`, up to the lock. -/
def Kernel.fork (s : Kernel) (i : Nat) : Kernel :=
  let c := s.table.made
  let child := Process.new s.table.nextPid (some i)
  let table := { s.table with
    made := c+1, process := update s.table.process c child, nextPid := s.table.nextPid+1 }
  { s with table := table }.goto i (.forkLink c)

def Kernel.fail (s : Kernel) (i : Nat) (pid : Int32) : Kernel :=
  { s with returns := s.returns ++ [Return.mk i pid none] }.goto i .user

def Kernel.syscall (s : Kernel) (i : Nat) : Call → Kernel
  | .fork => s.fork i
  | .exit code =>
    let table := s.table.modify i fun p =>
      { p with exitStatus := p.exitStatus.set (waitStatus code) }
    { s with table := table, code := update s.code i (some code) }.goto i .fini
  | .waitpid pid status options =>
    if pid ≤ 0 ∨ options ≠ 0 then s.fail i pid
    else if status = some false then s.fail i pid
    else s.goto i (.waitLock pid status.isSome)

/-- A step of process `i`; `call` is what it asks for when it is in user mode. -/
def Kernel.step (s : Kernel) (i : Nat) (call : Call) : Option Kernel :=
  match s.pc i with
  | .unborn => none
  -- the start of a child: its address space is copied, and the latch goes down
  | .born => some ({ s with forked := update s.forked i true }.goto i .user)
  | .user => some (s.syscall i call)
  | .forkLink c =>
    let table := s.table.modify i fun p => { p with children := c :: p.children }
    some ({ s with table := { table with processes := c :: table.processes } }.goto i
      (.forkCreate c))
  | .forkCreate c => some ((s.goto i (.forkSync c)).goto c .born)
  | .forkSync c => if s.forked c then some (s.goto i .user) else none
  | .fini => some (s.goto i .stopping)
  | .stopping =>
    let table := s.table.modify i fun p => { p with stopped := p.stopped.set true }
    some ({ s with table := table }.goto i .gone)
  | .gone => none
  | .waitLock pid status =>
    match s.table.findChild i pid with
    | none => some (s.fail i pid)
    | some c =>
      if (s.table.process c).waited then some (s.fail i pid)
      else
        let table := s.table.modify c fun p => { p with waited := true }
        some ({ s with table := table }.goto i (.waitExit c pid status))
  | .waitExit c pid status =>
    if (s.table.process c).exitStatus.ready then some (s.goto i (.waitRead c pid status)) else none
  | .waitRead c pid status =>
    some (s.goto i (.waitStopped c pid status (s.table.process c).exitStatus.value))
  | .waitStopped c pid status value =>
    if (s.table.process c).stopped.ready then
      let stored := if status then some value else none
      some ({ s with returns := s.returns ++ [Return.mk i pid (some (c, stored))] }.goto i .user)
    else none

def Kernel.boot : Kernel where
  table := ⟨1, fun _ => Process.new 1 none, [0], 2⟩
  pc := fun i => if i = 0 then .user else .unborn
  forked := fun _ => false
  code := fun _ => none
  returns := []

def processMachine : Machine Kernel (Nat × Call) where
  Init s := s = Kernel.boot
  step s a := s.step a.1 a.2

/-! What holds in every state. -/

/-- The thread has called `exit`. -/
def Pc.exited : Pc → Bool
  | .fini | .stopping | .gone => true
  | _ => false

def Pc.creating : Pc → Option Nat
  | .forkLink c | .forkCreate c => some c
  | _ => none

/-- The child a `waitpid` has claimed. -/
def Pc.claimed : Pc → Option (Nat × Int32)
  | .waitExit c pid _ | .waitRead c pid _ | .waitStopped c pid _ _ => some (c, pid)
  | _ => none

/-- The child whose exit status a `waitpid` has seen. -/
def Pc.seen : Pc → Option Nat
  | .waitRead c _ _ | .waitStopped c _ _ _ => some c
  | _ => none

/-- The status a `waitpid` has read. -/
def Pc.read : Pc → Option (Nat × Nat)
  | .waitStopped c _ _ value => some (c, value)
  | _ => none

/-- The children that a `waitpid` has returned. -/
def Kernel.delivered (s : Kernel) : List Nat :=
  s.returns.filterMap fun r => r.outcome.map Prod.fst

/-- The object of a process says where its thread is. -/
structure PhaseOk (s : Kernel) (i : Nat) : Prop where
  exit : (s.table.process i).exitStatus.ready = (s.pc i).exited
  stop : (s.table.process i).stopped.ready = true ↔ s.pc i = .gone
  code : (s.pc i).exited = true →
    ∃ code, s.code i = some code ∧ (s.table.process i).exitStatus.value = waitStatus code

/-- The children of a process are its own, and one that it has not started does not run. -/
structure ForkOk (s : Kernel) (i : Nat) : Prop where
  creating : ∀ c, (s.pc i).creating = some c →
    c < s.table.made ∧ s.pc c = .unborn ∧ (s.table.process c).parent = some i
  children : ∀ c ∈ (s.table.process i).children,
    c < s.table.made ∧ (s.table.process c).parent = some i

/-- A claimed child is the caller's and not returned yet. -/
structure WaitOk (s : Kernel) (i : Nat) : Prop where
  claimed : ∀ c pid, (s.pc i).claimed = some (c, pid) → c < s.table.made ∧
    (s.table.process c).parent = some i ∧ (s.table.process c).pid = pid ∧
      (s.table.process c).waited = true ∧ c ∉ s.delivered
  seen : ∀ c, (s.pc i).seen = some c → (s.pc c).exited = true
  read : ∀ c value, (s.pc i).read = some (c, value) →
    value = (s.table.process c).exitStatus.value

structure Delivery (s : Kernel) (r : Return) (c : Nat) (stored : Option Nat) : Prop where
  made : c < s.table.made
  parent : (s.table.process c).parent = some r.caller
  pid : (s.table.process c).pid = r.pid
  waited : (s.table.process c).waited = true
  gone : s.pc c = .gone
  status : ∃ code, s.code c = some code ∧ ∀ value, stored = some value → value = waitStatus code

structure ProcessInv (s : Kernel) : Prop where
  unmade : ∀ c, s.table.made ≤ c → s.pc c = .unborn
  phase : ∀ i < s.table.made, PhaseOk s i
  fork : ∀ i < s.table.made, ForkOk s i
  wait : ∀ i, WaitOk s i
  deliveries : ∀ r ∈ s.returns, ∀ c stored, r.outcome = some (c, stored) → Delivery s r c stored
  once : s.delivered.Nodup

variable {s s' : Kernel} {i : Nat}

/-- A change of the table keeps what has been set. -/
structure Table.Grows (t t' : Table) : Prop where
  made : t.made ≤ t'.made
  pid : ∀ c < t.made, (t'.process c).pid = (t.process c).pid
  parent : ∀ c < t.made, (t'.process c).parent = (t.process c).parent
  waited : ∀ c < t.made, (t.process c).waited = true → (t'.process c).waited = true

theorem Table.Grows.refl (t : Table) : t.Grows t :=
  ⟨Nat.le_refl _, fun _ _ => rfl, fun _ _ => rfl, fun _ _ h => h⟩

theorem modify_self (t : Table) (i : Nat) (f : Process → Process) :
    (t.modify i f).process i = f (t.process i) := update_self ..

theorem modify_other (t : Table) {i j : Nat} (f : Process → Process) (h : j ≠ i) :
    (t.modify i f).process j = t.process j := update_of_ne h ..

theorem same_object {p q : Process} (h : p = q) :
    p.exitStatus = q.exitStatus ∧ p.stopped = q.stopped ∧ p.children = q.children := by
  rw [h]
  exact ⟨rfl, rfl, rfl⟩

theorem grows_modify (t : Table) (i : Nat) (f : Process → Process)
    (hpid : (f (t.process i)).pid = (t.process i).pid)
    (hparent : (f (t.process i)).parent = (t.process i).parent)
    (hwaited : (t.process i).waited = true → (f (t.process i)).waited = true) :
    t.Grows (t.modify i f) := by
  have hcases (c : Nat) : (t.modify i f).process c = t.process c ∨
      c = i ∧ (t.modify i f).process c = f (t.process i) := by
    by_cases hc : c = i
    · subst hc
      exact Or.inr ⟨rfl, modify_self t c f⟩
    · exact Or.inl (modify_other t f hc)
  refine ⟨Nat.le_refl _, fun c _ => ?_, fun c _ => ?_, fun c _ hw => ?_⟩
  · obtain h | ⟨rfl,h⟩ := hcases c
    · rw [h]
    · rw [h, hpid]
  · obtain h | ⟨rfl,h⟩ := hcases c
    · rw [h]
    · rw [h, hparent]
  · obtain h | ⟨rfl,h⟩ := hcases c
    · rw [h, hw]
    · rw [h, hwaited hw]

/-- What a step keeps of a process that has called `exit`. -/
structure Frame (s s' : Kernel) : Prop where
  grows : s.table.Grows s'.table
  exited : ∀ c, (s.pc c).exited = true → (s'.pc c).exited = true ∧ s'.code c = s.code c ∧
    (s'.table.process c).exitStatus = (s.table.process c).exitStatus
  gone : ∀ c, s.pc c = .gone → s'.pc c = .gone

theorem Delivery.frame {r : Return} {c : Nat} {stored : Option Nat} (h : Delivery s r c stored)
    (hf : Frame s s') : Delivery s' r c stored := by
  have hexit : (s.pc c).exited = true := by
    rw [h.gone]
    rfl
  refine ⟨Nat.lt_of_lt_of_le h.made hf.grows.made, (hf.grows.parent c h.made).trans h.parent,
    (hf.grows.pid c h.made).trans h.pid, hf.grows.waited c h.made h.waited, hf.gone c h.gone, ?_⟩
  rw [(hf.exited c hexit).2.1]
  exact h.status

theorem WaitOk.frame (h : WaitOk s i) (hf : Frame s s') (hpc : s'.pc i = s.pc i)
    (hdel : ∀ c pid, (s.pc i).claimed = some (c, pid) → c ∉ s'.delivered) : WaitOk s' i := by
  have hread (c value : Nat) (hr : (s.pc i).read = some (c, value)) : (s.pc i).seen = some c := by
    cases hs : s.pc i with
    | waitStopped c' pid status value' =>
      rw [hs] at hr
      cases hr
      rfl
    | _ => rw [hs] at hr; cases hr
  refine ⟨fun c pid hc => ?_, fun c hc => ?_, fun c value hc => ?_⟩
  · rw [hpc] at hc
    obtain ⟨hmade,hparent,hpid,hwaited,-⟩ := h.claimed c pid hc
    exact ⟨Nat.lt_of_lt_of_le hmade hf.grows.made, (hf.grows.parent c hmade).trans hparent,
      (hf.grows.pid c hmade).trans hpid, hf.grows.waited c hmade hwaited, hdel c pid hc⟩
  · rw [hpc] at hc
    exact (hf.exited c (h.seen c hc)).1
  · rw [hpc] at hc
    rw [(hf.exited c (h.seen c (hread c value hc))).2.2]
    exact h.read c value hc

theorem PhaseOk.frame (h : PhaseOk s i) (hpc : s'.pc i = s.pc i) (hcode : s'.code i = s.code i)
    (hexit : (s'.table.process i).exitStatus = (s.table.process i).exitStatus)
    (hstop : (s'.table.process i).stopped = (s.table.process i).stopped) : PhaseOk s' i := by
  refine ⟨?_, ?_, ?_⟩
  · rw [hexit, hpc, h.exit]
  · rw [hstop, hpc, h.stop]
  · rw [hexit, hpc, hcode]
    exact h.code

theorem ForkOk.frame (h : ForkOk s i) (hgrows : s.table.Grows s'.table) (hpc : s'.pc i = s.pc i)
    (hchildren : (s'.table.process i).children = (s.table.process i).children)
    (hborn : ∀ c, (s.pc i).creating = some c → s'.pc c = s.pc c) : ForkOk s' i := by
  refine ⟨fun c hc => ?_, fun c hc => ?_⟩
  · rw [hpc] at hc
    obtain ⟨hlt,hunborn,hparent⟩ := h.creating c hc
    exact ⟨Nat.lt_of_lt_of_le hlt hgrows.made, (hborn c hc).trans hunborn,
      (hgrows.parent c hlt).trans hparent⟩
  · rw [hchildren] at hc
    obtain ⟨hlt,hparent⟩ := h.children c hc
    exact ⟨Nat.lt_of_lt_of_le hlt hgrows.made, (hgrows.parent c hlt).trans hparent⟩

theorem waitOk_idle (hc : (s.pc i).claimed = none) : WaitOk s i := by
  have hidle : (s.pc i).seen = none ∧ (s.pc i).read = none := by
    cases hs : s.pc i with
    | waitExit | waitRead | waitStopped => rw [hs] at hc; cases hc
    | _ => exact ⟨rfl, rfl⟩
  refine ⟨fun c pid h => ?_, fun c h => ?_, fun c value h => ?_⟩
  · rw [hc] at h
    cases h
  · rw [hidle.1] at h
    cases h
  · rw [hidle.2] at h
    cases h

/-- A step of process `i` that makes no object and starts no thread. -/
structure Local (s s' : Kernel) (i : Nat) : Prop where
  made : s'.table.made = s.table.made
  live : i < s.table.made
  free : ∀ j, (s.pc j).creating ≠ some i
  pc : ∀ j, j ≠ i → s'.pc j = s.pc j
  code : ∀ j, j ≠ i → s'.code j = s.code j
  object : ∀ j, j ≠ i → (s'.table.process j).exitStatus = (s.table.process j).exitStatus ∧
    (s'.table.process j).stopped = (s.table.process j).stopped ∧
    (s'.table.process j).children = (s.table.process j).children
  frame : Frame s s'

theorem ProcessInv.local (h : ProcessInv s) (hl : Local s s' i) (hphase : PhaseOk s' i)
    (hfork : ForkOk s' i) (hwait : WaitOk s' i)
    (hdel : ∀ j, j ≠ i → ∀ c pid, (s.pc j).claimed = some (c, pid) → c ∉ s'.delivered)
    (hret : ∀ r ∈ s'.returns, ∀ c stored, r.outcome = some (c, stored) →
      r ∈ s.returns ∨ Delivery s' r c stored)
    (honce : s'.delivered.Nodup) : ProcessInv s' := by
  have hmade := hl.made
  refine ⟨fun c hc => ?_, fun j hj => ?_, fun j hj => ?_, fun j => ?_, fun r hr c stored ho => ?_,
    honce⟩
  · have hne : c ≠ i := by
      have := hl.live
      omega
    rw [hl.pc c hne]
    exact h.unmade c (by omega)
  · by_cases hji : j = i
    · exact hji ▸ hphase
    · obtain ⟨he,hs,-⟩ := hl.object j hji
      exact (h.phase j (by omega)).frame (hl.pc j hji) (hl.code j hji) he hs
  · by_cases hji : j = i
    · exact hji ▸ hfork
    · refine (h.fork j (by omega)).frame hl.frame.grows (hl.pc j hji) (hl.object j hji).2.2
        fun c hc => hl.pc c fun heq => hl.free j (heq ▸ hc)
  · by_cases hji : j = i
    · exact hji ▸ hwait
    · exact (h.wait j).frame hl.frame (hl.pc j hji) (hdel j hji)
  · obtain hold | hnew := hret r hr c stored ho
    · exact (h.deliveries r hold c stored ho).frame hl.frame
    · exact hnew

theorem ProcessInv.live (h : ProcessInv s) (hpc : s.pc i ≠ .unborn) :
    i < s.table.made ∧ ∀ j, (s.pc j).creating ≠ some i := by
  have hmade (j : Nat) (hj : s.pc j ≠ .unborn) : j < s.table.made := by
    by_contra hge
    exact hj (h.unmade j (Nat.le_of_not_lt hge))
  refine ⟨hmade i hpc, fun j hj => hpc ?_⟩
  have hj' : s.pc j ≠ .unborn := fun heq => by
    rw [heq] at hj
    cases hj
  exact ((h.fork j (hmade j hj')).creating i hj).2.1

theorem local_goto {x : Pc} (hlive : i < s.table.made) (hfree : ∀ j, (s.pc j).creating ≠ some i)
    (hpc : s'.pc = update s.pc i x) (hmade : s'.table.made = s.table.made)
    (hgrows : s.table.Grows s'.table) (hcode : ∀ j, j ≠ i → s'.code j = s.code j)
    (hobject : ∀ j, j ≠ i → (s'.table.process j).exitStatus = (s.table.process j).exitStatus ∧
      (s'.table.process j).stopped = (s.table.process j).stopped ∧
      (s'.table.process j).children = (s.table.process j).children)
    (hexit : (s.pc i).exited = true → x.exited = true ∧ s'.code i = s.code i ∧
      (s'.table.process i).exitStatus = (s.table.process i).exitStatus)
    (hgone : s.pc i ≠ .gone) : Local s s' i := by
  have hother (j : Nat) (hj : j ≠ i) : s'.pc j = s.pc j := by
    rw [hpc, update_of_ne hj]
  refine ⟨hmade, hlive, hfree, hother, hcode, hobject, hgrows, fun c hc => ?_, fun c hc => ?_⟩
  · by_cases hci : c = i
    · subst hci
      rw [hpc, update_self]
      exact hexit hc
    · rw [hother c hci]
      exact ⟨hc, hcode c hci, (hobject c hci).1⟩
  · by_cases hci : c = i
    · exact absurd (hci ▸ hc) hgone
    · rw [hother c hci]
      exact hc

theorem ProcessInv.quiet {t : Kernel} (h : ProcessInv s) (hl : Local s t i) (hphase : PhaseOk t i)
    (hfork : ForkOk t i) (hwait : WaitOk t i)
    (hret : t.returns = s.returns ∨ ∃ pid, t.returns = s.returns ++ [⟨i, pid, none⟩]) :
    ProcessInv t := by
  have hdelivered : t.delivered = s.delivered := by
    obtain hr | ⟨pid,hr⟩ := hret
    · rw [Kernel.delivered, hr]
      rfl
    · rw [Kernel.delivered, hr, List.filterMap_append]
      exact List.append_nil _
  refine h.local hl hphase hfork hwait (fun j _ c pid hc => ?_) (fun r hr c stored ho => ?_) ?_
  · rw [hdelivered]
    exact ((h.wait j).claimed c pid hc).2.2.2.2
  · obtain heq | ⟨pid,heq⟩ := hret
    · exact Or.inl (heq ▸ hr)
    · rw [heq, List.mem_append, List.mem_singleton] at hr
      obtain hr | rfl := hr
      · exact Or.inl hr
      · cases ho
  · rw [hdelivered]
    exact h.once

theorem ProcessInv.goto (h : ProcessInv s) {x : Pc} (hpc : s'.pc = update s.pc i x)
    (htable : s'.table = s.table) (hcode : s'.code = s.code)
    (hret : s'.returns = s.returns ∨ ∃ pid, s'.returns = s.returns ++ [⟨i, pid, none⟩])
    (hunborn : s.pc i ≠ .unborn) (hgone : s.pc i ≠ .gone) (hx : x ≠ .gone)
    (hexited : x.exited = (s.pc i).exited) (hcreating : x.creating = none)
    (hwait : WaitOk s' i) : ProcessInv s' := by
  obtain ⟨hlive,hfree⟩ := h.live hunborn
  obtain ⟨hexit,hstop,hcode'⟩ := h.phase i hlive
  obtain ⟨-,hchildren⟩ := h.fork i hlive
  have hself : s'.pc i = x := by rw [hpc, update_self]
  refine h.quiet (local_goto hlive hfree hpc (by rw [htable]) (htable ▸ .refl _)
    (fun j _ => by rw [hcode]) (fun j _ => by rw [htable]; exact ⟨rfl, rfl, rfl⟩)
    (fun he => by rw [hexited, hcode, htable]; exact ⟨he, rfl, rfl⟩) hgone)
    ⟨?_, ?_, ?_⟩ ⟨?_, ?_⟩ hwait hret
  · rw [htable, hself, hexited]
    exact hexit
  · rw [htable, hself]
    exact ⟨fun hs => absurd (hstop.mp hs) hgone, fun he => absurd he hx⟩
  · rw [htable, hself, hcode, hexited]
    exact hcode'
  · intro c hc
    rw [hself, hcreating] at hc
    cases hc
  · rw [htable]
    exact hchildren

@[simp] theorem goto_self (s : Kernel) (i : Nat) (x : Pc) : (s.goto i x).pc i = x := update_self ..

theorem ProcessInv.advance (h : ProcessInv s) {x y : Pc} (hy : s.pc i = y)
    (hpc : s'.pc = update s.pc i x) (htable : s'.table = s.table) (hcode : s'.code = s.code)
    (hret : s'.returns = s.returns) (hfrom : y ≠ .unborn ∧ y ≠ .gone)
    (hto : x ≠ .gone ∧ x.exited = y.exited ∧ x.creating = none ∧ x.claimed = none) :
    ProcessInv s' := by
  obtain ⟨hx,hexited,hcreating,hclaimed⟩ := hto
  subst hy
  refine h.goto hpc htable hcode (Or.inl hret) hfrom.1 hfrom.2 hx hexited hcreating ?_
  apply waitOk_idle
  rw [hpc, update_self]
  exact hclaimed

theorem claimed_inside {x : Pc} {p : Nat × Int32} (h : x.claimed = some p) :
    x ≠ .unborn ∧ x ≠ .gone ∧ x.exited = false ∧ x.creating = none := by
  cases x with
  | waitExit | waitRead | waitStopped => exact ⟨nofun, nofun, rfl, rfl⟩
  | _ => cases h

theorem ProcessInv.onward (h : ProcessInv s) {x : Pc} {c : Nat} {pid : Int32}
    (hfrom : (s.pc i).claimed = some (c, pid)) (hexited : (s.pc c).exited = true)
    (hclaimed : x.claimed = some (c, pid)) (hseen : x.seen = some c)
    (hread : ∀ c' value, x.read = some (c', value) →
      value = (s.table.process c').exitStatus.value) : ProcessInv (s.goto i x) := by
  obtain ⟨hunborn,hgone,hinside,-⟩ := claimed_inside hfrom
  obtain ⟨-,hx,hstays,hcreating⟩ := claimed_inside hclaimed
  have hne : c ≠ i := fun heq => by
    rw [heq, hinside] at hexited
    cases hexited
  refine h.goto rfl rfl rfl (Or.inl rfl) hunborn hgone hx (hstays.trans hinside.symm) hcreating
    ⟨fun c' pid' hc => ?_, fun c' hc => ?_, fun c' value hc => ?_⟩
  · rw [goto_self, hclaimed] at hc
    cases hc
    exact (h.wait i).claimed c pid hfrom
  · rw [goto_self, hseen] at hc
    cases hc
    change (update s.pc i x c).exited = true
    rw [update_of_ne hne]
    exact hexited
  · rw [goto_self] at hc
    exact hread c' value hc

/-! The steps. -/

theorem ProcessInv.fail (h : ProcessInv s) (pid : Int32) (hunborn : s.pc i ≠ .unborn)
    (hexited : (s.pc i).exited = false) : ProcessInv (s.fail i pid) := by
  have hgone : s.pc i ≠ .gone := fun heq => by
    rw [heq] at hexited
    cases hexited
  refine h.goto rfl rfl rfl (Or.inr ⟨pid, rfl⟩) hunborn hgone (by decide) hexited.symm rfl ?_
  exact waitOk_idle (by rw [Kernel.fail, goto_self]; rfl)

theorem ProcessInv.exit (h : ProcessInv s) (hpc : s.pc i = .user) (code : UInt64) :
    ProcessInv (s.syscall i (.exit code)) := by
  obtain ⟨hlive,hfree⟩ := h.live (by rw [hpc]; decide)
  obtain ⟨-,hstop,-⟩ := h.phase i hlive
  obtain ⟨-,hchildren⟩ := h.fork i hlive
  let f : Process → Process := fun p => { p with exitStatus := p.exitStatus.set (waitStatus code) }
  have hself : (s.table.modify i f).process i = f (s.table.process i) := modify_self ..
  have hgrows : s.table.Grows (s.table.modify i f) := grows_modify _ _ _ rfl rfl fun hw => hw
  refine h.quiet (t := s.syscall i (.exit code)) (local_goto hlive hfree rfl rfl hgrows
    (fun j hj => update_of_ne hj ..) (fun j hj => same_object (modify_other _ f hj))
    (fun he => ?_) (by rw [hpc]; decide)) ⟨?_, ?_, fun _ => ⟨code, update_self .., ?_⟩⟩
    ⟨fun c hc => ?_, fun c hc => ?_⟩ (waitOk_idle (by rw [Kernel.syscall, goto_self]; rfl))
    (Or.inl rfl)
  · rw [hpc] at he
    cases he
  · change ((s.table.modify i f).process i).exitStatus.ready = _
    rw [hself, Kernel.syscall, goto_self]
    rfl
  · change ((s.table.modify i f).process i).stopped.ready = true ↔ _
    rw [hself, Kernel.syscall, goto_self]
    exact ⟨fun hs => absurd (hpc ▸ hstop.mp hs) (by decide), fun he => absurd he (by decide)⟩
  · change ((s.table.modify i f).process i).exitStatus.value = _
    rw [hself]
    rfl
  · rw [Kernel.syscall, goto_self] at hc
    cases hc
  · have hc' : c ∈ ((s.table.modify i f).process i).children := hc
    rw [hself] at hc'
    obtain ⟨hlt,hparent⟩ := hchildren c hc'
    exact ⟨hlt, (hgrows.parent c hlt).trans hparent⟩

theorem ProcessInv.stopped (h : ProcessInv s) (hpc : s.pc i = .stopping) {call : Call}
    (hs : s.step i call = some s') : ProcessInv s' := by
  simp only [Kernel.step, hpc, Option.some.injEq] at hs
  subst hs
  obtain ⟨hlive,hfree⟩ := h.live (by rw [hpc]; decide)
  obtain ⟨hexit,-,hcode⟩ := h.phase i hlive
  obtain ⟨-,hchildren⟩ := h.fork i hlive
  rw [hpc] at hexit hcode
  let f : Process → Process := fun p => { p with stopped := p.stopped.set true }
  have hself : (s.table.modify i f).process i = f (s.table.process i) := modify_self ..
  have hgrows : s.table.Grows (s.table.modify i f) := grows_modify _ _ _ rfl rfl fun hw => hw
  refine h.quiet (t := { s with table := s.table.modify i f }.goto i .gone)
    (local_goto hlive hfree rfl rfl hgrows (fun _ _ => rfl)
      (fun j hj => same_object (modify_other _ f hj)) (fun _ => ⟨rfl, rfl, ?_⟩)
      (by rw [hpc]; decide)) ⟨?_, ?_, fun _ => ?_⟩ ⟨fun c hc => ?_, fun c hc => ?_⟩
    (waitOk_idle (by rw [goto_self]; rfl)) (Or.inl rfl)
  · change ((s.table.modify i f).process i).exitStatus = _
    rw [hself]
  · change ((s.table.modify i f).process i).exitStatus.ready = _
    rw [hself, goto_self]
    exact hexit
  · change ((s.table.modify i f).process i).stopped.ready = true ↔ _
    rw [hself, goto_self]
    exact ⟨fun _ => rfl, fun _ => rfl⟩
  · change ∃ code, s.code i = some code ∧
      ((s.table.modify i f).process i).exitStatus.value = waitStatus code
    rw [hself]
    exact hcode rfl
  · rw [goto_self] at hc
    cases hc
  · have hc' : c ∈ ((s.table.modify i f).process i).children := hc
    rw [hself] at hc'
    obtain ⟨hlt,hparent⟩ := hchildren c hc'
    exact ⟨hlt, (hgrows.parent c hlt).trans hparent⟩

theorem ProcessInv.link (h : ProcessInv s) {c : Nat} (hpc : s.pc i = .forkLink c) {call : Call}
    (hs : s.step i call = some s') : ProcessInv s' := by
  simp only [Kernel.step, hpc, Option.some.injEq] at hs
  subst hs
  obtain ⟨hlive,hfree⟩ := h.live (by rw [hpc]; nofun)
  obtain ⟨hexit,hstop,-⟩ := h.phase i hlive
  obtain ⟨hcreating,hchildren⟩ := h.fork i hlive
  obtain ⟨hc,hunborn,hparent⟩ := hcreating c (by rw [hpc]; rfl)
  have hci : c ≠ i := fun heq => by
    rw [heq, hpc] at hunborn
    cases hunborn
  let f : Process → Process := fun p => { p with children := c :: p.children }
  have hself : (s.table.modify i f).process i = f (s.table.process i) := modify_self ..
  have hgrows : s.table.Grows (s.table.modify i f) := grows_modify _ _ _ rfl rfl fun hw => hw
  refine h.quiet (t := Kernel.goto _ i (.forkCreate c)) (local_goto hlive hfree rfl rfl
    ⟨hgrows.made, hgrows.pid, hgrows.parent, hgrows.waited⟩ (fun _ _ => rfl)
    (fun j hj => same_object (modify_other _ f hj)) (fun he => ?_) (by rw [hpc]; nofun))
    ⟨?_, ?_, fun he => ?_⟩ ⟨fun c' hc' => ?_, fun c' hc' => ?_⟩
    (waitOk_idle (by rw [goto_self]; rfl)) (Or.inl rfl)
  · rw [hpc] at he
    cases he
  · change ((s.table.modify i f).process i).exitStatus.ready = _
    rw [hself, goto_self]
    rw [hpc] at hexit
    exact hexit
  · change ((s.table.modify i f).process i).stopped.ready = true ↔ _
    rw [hself, goto_self]
    rw [hpc] at hstop
    exact ⟨fun hs => absurd (hstop.mp hs) nofun, nofun⟩
  · rw [goto_self] at he
    cases he
  · rw [goto_self] at hc'
    cases hc'
    refine ⟨hc, ?_, (hgrows.parent c hc).trans hparent⟩
    change update s.pc i _ c = _
    rw [update_of_ne hci]
    exact hunborn
  · have hc'' : c' ∈ ((s.table.modify i f).process i).children := hc'
    rw [hself] at hc''
    obtain rfl | hold := List.mem_cons.mp hc''
    · exact ⟨hc, (hgrows.parent c' hc).trans hparent⟩
    · obtain ⟨hlt,hp⟩ := hchildren c' hold
      exact ⟨hlt, (hgrows.parent c' hlt).trans hp⟩

theorem ProcessInv.claim (h : ProcessInv s) {pid : Int32} {status : Bool}
    (hpc : s.pc i = .waitLock pid status) {c : Nat} (hfind : s.table.findChild i pid = some c)
    (hwaited : (s.table.process c).waited = false) {call : Call}
    (hs : s.step i call = some s') : ProcessInv s' := by
  simp only [Kernel.step, hpc, hfind, hwaited, Bool.false_eq_true, if_false, Option.some.injEq] at hs
  subst hs
  obtain ⟨hlive,hfree⟩ := h.live (by rw [hpc]; nofun)
  obtain ⟨hexit,hstop,-⟩ := h.phase i hlive
  obtain ⟨-,hchildren⟩ := h.fork i hlive
  rw [hpc] at hexit hstop
  obtain ⟨hc,hparent⟩ := hchildren c (List.mem_of_find?_eq_some hfind)
  have hpid : (s.table.process c).pid = pid := by
    simpa using List.find?_some hfind
  let f : Process → Process := fun p => { p with waited := true }
  have hself : (s.table.modify c f).process c = f (s.table.process c) := modify_self ..
  have hgrows : s.table.Grows (s.table.modify c f) := grows_modify _ _ _ rfl rfl fun _ => rfl
  have hobject (j : Nat) : ((s.table.modify c f).process j).exitStatus =
        (s.table.process j).exitStatus ∧
      ((s.table.modify c f).process j).stopped = (s.table.process j).stopped ∧
      ((s.table.modify c f).process j).children = (s.table.process j).children := by
    by_cases hj : j = c
    · subst hj
      rw [hself]
      exact ⟨rfl, rfl, rfl⟩
    · exact same_object (modify_other _ f hj)
  obtain ⟨hstatus,hstopped,hkids⟩ := hobject i
  refine h.quiet (t := Kernel.goto { s with table := s.table.modify c f } i (.waitExit c pid status))
    (local_goto hlive hfree rfl rfl hgrows (fun _ _ => rfl) (fun j _ => hobject j) (fun he => ?_)
      (by rw [hpc]; nofun))
    ⟨?_, ?_, fun he => ?_⟩ ⟨fun c' hc' => ?_, fun c' hc' => ?_⟩
    ⟨fun c' pid' hc' => ?_, fun c' hc' => ?_, fun c' value hc' => ?_⟩ (Or.inl rfl)
  · rw [hpc] at he
    cases he
  · change ((s.table.modify c f).process i).exitStatus.ready = _
    rw [hstatus, goto_self]
    exact hexit
  · change ((s.table.modify c f).process i).stopped.ready = true ↔ _
    rw [hstopped, goto_self]
    exact ⟨fun hs => absurd (hstop.mp hs) nofun, nofun⟩
  · rw [goto_self] at he
    cases he
  · rw [goto_self] at hc'
    cases hc'
  · have hc'' : c' ∈ ((s.table.modify c f).process i).children := hc'
    rw [hkids] at hc''
    obtain ⟨hlt,hp⟩ := hchildren c' hc''
    exact ⟨hlt, (hgrows.parent c' hlt).trans hp⟩
  · rw [goto_self] at hc'
    cases hc'
    refine ⟨hc, (hgrows.parent c hc).trans hparent, (hgrows.pid c hc).trans hpid, ?_, fun hd => ?_⟩
    · change ((s.table.modify c f).process c).waited = true
      rw [hself]
    · -- a child that was returned has been claimed
      have hd' : c ∈ s.delivered := hd
      obtain ⟨r,hr,hout⟩ := List.mem_filterMap.mp hd'
      obtain ⟨⟨c',stored⟩,ho,rfl⟩ := Option.map_eq_some_iff.mp hout
      have := (h.deliveries r hr c' stored ho).waited
      rw [hwaited] at this
      cases this
  · rw [goto_self] at hc'
    cases hc'
  · rw [goto_self] at hc'
    cases hc'

theorem ProcessInv.create (h : ProcessInv s) {c : Nat} (hpc : s.pc i = .forkCreate c) {call : Call}
    (hs : s.step i call = some s') : ProcessInv s' := by
  simp only [Kernel.step, hpc, Option.some.injEq] at hs
  subst hs
  obtain ⟨hlive,-⟩ := h.live (by rw [hpc]; nofun)
  obtain ⟨hc,hunborn,hparent⟩ := (h.fork i hlive).creating c (by rw [hpc]; rfl)
  have hci : c ≠ i := fun heq => by
    rw [heq, hpc] at hunborn
    cases hunborn
  have hmid : ProcessInv (s.goto i (.forkSync c)) :=
    h.advance hpc rfl rfl rfl rfl ⟨nofun, nofun⟩ ⟨nofun, rfl, rfl, rfl⟩
  have hchild : (s.goto i (.forkSync c)).pc c = .unborn := by
    change update s.pc i _ c = _
    rw [update_of_ne hci]
    exact hunborn
  -- nobody else has the child
  have hfree (j : Nat) : ((s.goto i (.forkSync c)).pc j).creating ≠ some c := by
    intro hj
    have hjlive : j < s.table.made := by
      by_contra hge
      have hunmade := hmid.unmade j (Nat.le_of_not_lt hge)
      rw [hunmade] at hj
      cases hj
    obtain ⟨-,-,hp⟩ := (hmid.fork j hjlive).creating c hj
    obtain rfl : j = i := Option.some.inj (hp.symm.trans hparent)
    rw [goto_self] at hj
    cases hj
  obtain ⟨hexit,hstop,-⟩ := hmid.phase c hc
  obtain ⟨-,hchildren⟩ := hmid.fork c hc
  rw [hchild] at hexit hstop
  refine hmid.quiet (t := Kernel.goto _ c .born) (local_goto hc hfree rfl rfl (.refl _)
    (fun _ _ => rfl) (fun _ _ => ⟨rfl, rfl, rfl⟩) (fun he => ?_) (by rw [hchild]; nofun))
    ⟨?_, ?_, fun he => ?_⟩ ⟨fun c' hc' => ?_, hchildren⟩ (waitOk_idle (by rw [goto_self]; rfl))
    (Or.inl rfl)
  · rw [hchild] at he
    cases he
  · rw [goto_self]
    exact hexit
  · rw [goto_self]
    exact ⟨fun hs => absurd (hstop.mp hs) nofun, nofun⟩
  · rw [goto_self] at he
    cases he
  · rw [goto_self] at hc'
    cases hc'

theorem ProcessInv.alloc (h : ProcessInv s) (p : Process) (pid : Int32)
    (hp : p.exitStatus.ready = false ∧ p.stopped.ready = false ∧ p.children = []) :
    ProcessInv { s with table := { s.table with
      made := s.table.made+1, process := update s.table.process s.table.made p,
      nextPid := pid } } := by
  obtain ⟨hready,hstopped,hnone⟩ := hp
  generalize hs' : ({ s with table := { s.table with
    made := s.table.made+1, process := update s.table.process s.table.made p,
    nextPid := pid } } : Kernel) = s'
  have hmade : s'.table.made = s.table.made+1 := by rw [← hs']
  have hpc : s'.pc = s.pc := by rw [← hs']
  have hcode : s'.code = s.code := by rw [← hs']
  have hret : s'.returns = s.returns := by rw [← hs']
  have hdel : s'.delivered = s.delivered := by rw [← hs']; rfl
  have hnew : s'.table.process s.table.made = p := by
    rw [← hs']
    exact update_self ..
  have hold (c : Nat) (hc : c < s.table.made) : s'.table.process c = s.table.process c := by
    rw [← hs']
    exact update_of_ne (by omega) ..
  have hunborn : s.pc s.table.made = .unborn := h.unmade _ (Nat.le_refl _)
  have hgrows : s.table.Grows s'.table := by
    refine ⟨by omega, fun c hc => ?_, fun c hc => ?_, fun c hc hw => ?_⟩ <;> rw [hold c hc]
    exact hw
  have hlive (c : Nat) (hc : (s.pc c).exited = true) : c < s.table.made := by
    by_contra hge
    rw [h.unmade c (Nat.le_of_not_lt hge)] at hc
    cases hc
  have hframe : Frame s s' := by
    refine ⟨hgrows, fun c hc => ?_, fun c hc => ?_⟩
    · rw [hpc, hcode, hold c (hlive c hc)]
      exact ⟨hc, rfl, rfl⟩
    · rw [hpc, hc]
  refine ⟨fun c hc => ?_, fun c hc => ?_, fun c hc => ?_, fun c => ?_, fun r hr c stored ho => ?_, ?_⟩
  · rw [hpc]
    exact h.unmade c (by omega)
  · by_cases hlt : c < s.table.made
    · exact (h.phase c hlt).frame (by rw [hpc]) (by rw [hcode]) (by rw [hold c hlt])
        (by rw [hold c hlt])
    · obtain rfl : c = s.table.made := by omega
      refine ⟨?_, ?_, fun he => ?_⟩
      · rw [hnew, hpc, hunborn, hready]
        rfl
      · rw [hnew, hpc, hunborn, hstopped]
        exact ⟨nofun, nofun⟩
      · rw [hpc, hunborn] at he
        cases he
  · by_cases hlt : c < s.table.made
    · exact (h.fork c hlt).frame hgrows (by rw [hpc]) (by rw [hold c hlt]) fun _ _ => by rw [hpc]
    · obtain rfl : c = s.table.made := by omega
      refine ⟨fun c' hc' => ?_, fun c' hc' => ?_⟩
      · rw [hpc, hunborn] at hc'
        cases hc'
      · rw [hnew, hnone] at hc'
        cases hc'
  · refine (h.wait c).frame hframe (by rw [hpc]) fun c' pid hc' => ?_
    rw [hdel]
    exact ((h.wait c).claimed c' pid hc').2.2.2.2
  · rw [hret] at hr
    exact (h.deliveries r hr c stored ho).frame hframe
  · rw [hdel]
    exact h.once

theorem ProcessInv.forked (h : ProcessInv s) (hpc : s.pc i = .user) : ProcessInv (s.fork i) := by
  obtain ⟨hlive,-⟩ := h.live (by rw [hpc]; nofun)
  have hnew := h.alloc (Process.new s.table.nextPid (some i)) (s.table.nextPid+1) ⟨rfl, rfl, rfl⟩
  have hunborn : s.pc s.table.made = .unborn := h.unmade _ (Nat.le_refl _)
  have hne : s.table.made ≠ i := by omega
  unfold Kernel.fork
  dsimp only
  generalize hs₁ : ({ s with table := { s.table with
    made := s.table.made+1,
    process := update s.table.process s.table.made (Process.new s.table.nextPid (some i)),
    nextPid := s.table.nextPid+1 } } : Kernel) = s₁ at hnew
  have hpc₁ : s₁.pc = s.pc := by rw [← hs₁]
  have hmade₁ : s₁.table.made = s.table.made+1 := by rw [← hs₁]
  have hparent : (s₁.table.process s.table.made).parent = some i := by
    rw [← hs₁]
    change (update s.table.process s.table.made _ _).parent = _
    rw [update_self]
    rfl
  obtain ⟨hlive₁,hfree₁⟩ := hnew.live (show s₁.pc i ≠ .unborn by rw [hpc₁, hpc]; nofun)
  obtain ⟨hexit,hstop,-⟩ := hnew.phase i hlive₁
  obtain ⟨-,hchildren⟩ := hnew.fork i hlive₁
  rw [hpc₁, hpc] at hexit hstop
  refine hnew.quiet (t := s₁.goto i (.forkLink s.table.made)) (local_goto hlive₁ hfree₁ rfl rfl
    (.refl _) (fun _ _ => rfl) (fun _ _ => ⟨rfl, rfl, rfl⟩) (fun he => ?_)
    (by rw [hpc₁, hpc]; nofun)) ⟨?_, ?_, fun he => ?_⟩ ⟨fun c hc => ?_, hchildren⟩
    (waitOk_idle (by rw [goto_self]; rfl)) (Or.inl rfl)
  · rw [hpc₁, hpc] at he
    cases he
  · rw [goto_self]
    exact hexit
  · rw [goto_self]
    exact ⟨fun hs => absurd (hstop.mp hs) nofun, nofun⟩
  · rw [goto_self] at he
    cases he
  · rw [goto_self] at hc
    cases hc
    refine ⟨?_, ?_, hparent⟩
    · change s.table.made < s₁.table.made
      omega
    · change update s₁.pc i _ s.table.made = _
      rw [update_of_ne hne, hpc₁]
      exact hunborn

theorem ProcessInv.deliver (h : ProcessInv s) {c value : Nat} {pid : Int32} {status : Bool}
    (hpc : s.pc i = .waitStopped c pid status value)
    (hstopped : (s.table.process c).stopped.ready = true) {call : Call}
    (hs : s.step i call = some s') : ProcessInv s' := by
  simp only [Kernel.step, hpc, hstopped, if_true, Option.some.injEq] at hs
  generalize hstored : (if status = true then some value else none) = stored at hs
  obtain ⟨hlive,hfree⟩ := h.live (by rw [hpc]; nofun)
  obtain ⟨hexit,hstop,-⟩ := h.phase i hlive
  obtain ⟨-,hchildren⟩ := h.fork i hlive
  rw [hpc] at hexit hstop
  obtain ⟨hmade,hparent,hpid,hwaited,hnot⟩ := (h.wait i).claimed c pid (by rw [hpc]; rfl)
  have hread := (h.wait i).read c value (by rw [hpc]; rfl)
  have hgone : s.pc c = .gone := (h.phase c hmade).stop.mp hstopped
  have hci : c ≠ i := fun heq => by
    rw [heq, hpc] at hgone
    cases hgone
  have hdel : s'.delivered = s.delivered ++ [c] := by
    rw [← hs, Kernel.delivered, Kernel.delivered]
    change (s.returns ++ _).filterMap _ = _
    rw [List.filterMap_append]
    rfl
  have hreturns : s'.returns = s.returns ++ [⟨i, pid, some (c, stored)⟩] := by rw [← hs]; rfl
  have hself : s'.pc i = .user := by rw [← hs, goto_self]
  have hpc' : s'.pc c = .gone := by
    rw [← hs]
    change update s.pc i _ c = _
    rw [update_of_ne hci]
    exact hgone
  have htable : s'.table = s.table := by rw [← hs]; rfl
  have hcode : s'.code = s.code := by rw [← hs]; rfl
  have hlocal : Local s s' i := by
    refine local_goto (x := .user) hlive hfree (by rw [← hs]; rfl) (by rw [htable])
      (htable ▸ .refl _) (fun j _ => by rw [hcode]) (fun j _ => by rw [htable]; exact ⟨rfl, rfl, rfl⟩)
      (fun he => ?_) (by rw [hpc]; nofun)
    rw [hpc] at he
    cases he
  refine h.local hlocal ⟨?_, ?_, fun he => ?_⟩ ⟨fun c' hc' => ?_, ?_⟩
    (waitOk_idle (by rw [hself]; rfl)) (fun j hj c' pid' hc' => ?_) (fun r hr c' stored' ho => ?_) ?_
  · rw [htable, hself]
    exact hexit
  · rw [htable, hself]
    exact ⟨fun hs => absurd (hstop.mp hs) nofun, nofun⟩
  · rw [hself] at he
    cases he
  · rw [hself] at hc'
    cases hc'
  · rw [htable]
    exact hchildren
  · -- no two processes wait for one child, which has one parent
    obtain ⟨-,hp,-,-,hn⟩ := (h.wait j).claimed c' pid' hc'
    rw [hdel, List.mem_append, List.mem_singleton, not_or]
    refine ⟨hn, fun heq => hj ?_⟩
    rw [heq, hparent] at hp
    exact (Option.some.inj hp).symm
  · rw [hreturns, List.mem_append, List.mem_singleton] at hr
    obtain hr | rfl := hr
    · exact Or.inl hr
    · cases ho
      obtain ⟨code,hc,hv⟩ := (h.phase c hmade).code (by rw [hgone]; rfl)
      refine Or.inr ⟨htable ▸ hmade, htable ▸ hparent, htable ▸ hpid, htable ▸ hwaited, hpc', code,
        by rw [hcode, hc], fun v hv' => ?_⟩
      split at hstored
      · rw [← hstored] at hv'
        rw [← Option.some.inj hv', hread, hv]
      · rw [← hstored] at hv'
        cases hv'
  · rw [hdel]
    exact List.nodup_append.mpr ⟨h.once, List.nodup_singleton c, fun a ha b hb heq => by
      rw [List.mem_singleton.mp hb] at heq
      exact hnot (heq ▸ ha)⟩

theorem ProcessInv.step (h : ProcessInv s) {call : Call} (hs : s.step i call = some s') :
    ProcessInv s' := by
  cases hpc : s.pc i with
  | unborn | gone =>
    rw [Kernel.step, hpc] at hs
    cases hs
  | born =>
    simp only [Kernel.step, hpc, Option.some.injEq] at hs
    subst hs
    exact h.advance hpc rfl rfl rfl rfl ⟨nofun, nofun⟩ ⟨nofun, rfl, rfl, rfl⟩
  | user =>
    simp only [Kernel.step, hpc, Option.some.injEq] at hs
    subst hs
    have hfail (pid : Int32) : ProcessInv (s.fail i pid) :=
      h.fail pid (by rw [hpc]; nofun) (by rw [hpc]; rfl)
    cases call with
    | fork => exact h.forked hpc
    | exit code => exact h.exit hpc code
    | waitpid pid status options =>
      unfold Kernel.syscall
      dsimp only
      split
      · exact hfail pid
      split
      · exact hfail pid
      · exact h.advance hpc rfl rfl rfl rfl ⟨nofun, nofun⟩ ⟨nofun, rfl, rfl, rfl⟩
  | forkLink c => exact h.link hpc hs
  | forkCreate c => exact h.create hpc hs
  | forkSync c =>
    simp only [Kernel.step, hpc] at hs
    split at hs
    · cases hs
      exact h.advance hpc rfl rfl rfl rfl ⟨nofun, nofun⟩ ⟨nofun, rfl, rfl, rfl⟩
    · cases hs
  | fini =>
    simp only [Kernel.step, hpc, Option.some.injEq] at hs
    subst hs
    exact h.advance hpc rfl rfl rfl rfl ⟨nofun, nofun⟩ ⟨nofun, rfl, rfl, rfl⟩
  | stopping => exact h.stopped hpc hs
  | waitLock pid status =>
    cases hfind : s.table.findChild i pid with
    | none =>
      simp only [Kernel.step, hpc, hfind, Option.some.injEq] at hs
      subst hs
      exact h.fail pid (by rw [hpc]; nofun) (by rw [hpc]; rfl)
    | some c =>
      cases hw : (s.table.process c).waited with
      | true =>
        simp only [Kernel.step, hpc, hfind, hw, if_true, Option.some.injEq] at hs
        subst hs
        exact h.fail pid (by rw [hpc]; nofun) (by rw [hpc]; rfl)
      | false => exact h.claim hpc hfind hw hs
  | waitExit c pid status =>
    simp only [Kernel.step, hpc] at hs
    split at hs
    · rename_i hready
      cases hs
      have hfrom : (s.pc i).claimed = some (c, pid) := by rw [hpc]; rfl
      have hmade := ((h.wait i).claimed c pid hfrom).1
      exact h.onward hfrom ((h.phase c hmade).exit ▸ hready) rfl rfl nofun
    · cases hs
  | waitRead c pid status =>
    simp only [Kernel.step, hpc, Option.some.injEq] at hs
    subst hs
    have hfrom : (s.pc i).claimed = some (c, pid) := by rw [hpc]; rfl
    refine h.onward hfrom ((h.wait i).seen c (by rw [hpc]; rfl)) rfl rfl fun c' value hread => ?_
    cases hread
    rfl
  | waitStopped c pid status value =>
    cases hstopped : (s.table.process c).stopped.ready with
    | true => exact h.deliver hpc hstopped hs
    | false => simp [Kernel.step, hpc, hstopped] at hs

theorem processInv_boot : ProcessInv Kernel.boot := by
  have hidle (i : Nat) : (Kernel.boot.pc i).claimed = none ∧ (Kernel.boot.pc i).creating = none := by
    change (Pc.claimed (if i = 0 then .user else .unborn)) = none ∧
      (Pc.creating (if i = 0 then .user else .unborn)) = none
    split <;> exact ⟨rfl, rfl⟩
  refine ⟨fun c hc => if_neg (show ¬c = 0 from Nat.ne_of_gt hc), fun i hi => ?_, fun i _ => ?_,
    fun i => waitOk_idle (hidle i).1, nofun, List.nodup_nil⟩
  · obtain rfl : i = 0 := Nat.lt_one_iff.mp hi
    exact ⟨rfl, ⟨nofun, nofun⟩, nofun⟩
  · refine ⟨fun c hc => ?_, nofun⟩
    rw [(hidle i).2] at hc
    cases hc

theorem process_invariant : processMachine.system.Invariant ProcessInv where
  init := by
    rintro s rfl
    exact processInv_boot
  step := by
    rintro s s' h ⟨⟨i,call⟩,-,hs⟩
    exact h.step hs

/-- A step by which a `waitpid` starts or returns -1 leaves the process table alone. -/
theorem step_table {call : Call} (hs : s.step i call = some s') :
    ((∃ pid status options, s.pc i = .user ∧ call = .waitpid pid status options) →
      s'.table = s.table) ∧
    ((∃ pid, s'.returns = s.returns ++ [⟨i, pid, none⟩]) → s'.table = s.table) := by
  constructor
  · rintro ⟨pid,status,options,hpc,rfl⟩
    simp only [Kernel.step, hpc, Kernel.syscall, Option.some.injEq] at hs
    split at hs
    · exact hs ▸ rfl
    split at hs
    · exact hs ▸ rfl
    · exact hs ▸ rfl
  · rintro ⟨pid,hret⟩
    have hsame {t : Kernel} (ht : some t = some s') (h : t.returns = s.returns) : False := by
      cases ht
      rw [h] at hret
      exact absurd (congrArg List.length hret) (by simp)
    cases hpc : s.pc i with
    | unborn | gone => simp [Kernel.step, hpc] at hs
    | born | forkCreate | fini | waitRead =>
      simp only [Kernel.step, hpc] at hs
      cases hs
      rfl
    | user =>
      simp only [Kernel.step, hpc] at hs
      cases call with
      | fork => exact (hsame hs rfl).elim
      | exit code => exact (hsame hs rfl).elim
      | waitpid pid status options =>
        unfold Kernel.syscall at hs
        dsimp only at hs
        split at hs
        · cases hs
          rfl
        split at hs <;> cases hs <;> rfl
    | forkLink c | stopping =>
      simp only [Kernel.step, hpc] at hs
      exact (hsame hs rfl).elim
    | forkSync | waitExit =>
      simp only [Kernel.step, hpc] at hs
      split at hs <;> cases hs
      rfl
    | waitLock pid status =>
      cases hfind : s.table.findChild i pid with
      | none =>
        simp only [Kernel.step, hpc, hfind] at hs
        cases hs
        rfl
      | some c =>
        simp only [Kernel.step, hpc, hfind] at hs
        split at hs
        · cases hs
          rfl
        · exact (hsame hs rfl).elim
    | waitStopped =>
      simp only [Kernel.step, hpc] at hs
      split at hs <;> cases hs
      rfl

def forkWait : List (Nat × Call) :=
  let go : Call := .fork
  [(0, .fork), (0, go), (0, go), (1, go), (0, go), (1, .exit 7), (0, .waitpid 2 (some true) 0),
    (0, go), (1, go), (0, go), (1, go), (0, go), (0, go), (0, .waitpid 2 none 0), (0, go)]

end NetKernel.Processes
