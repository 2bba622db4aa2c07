import Mathlib.Algebra.Group.Nat.Defs
import NetKernel.Lib.Places
import NetKernel.Lib.Runs

/-! The scheduler: cores that run threads from one ready queue, put the thread they came
from where its action says, and free the stopped ones. -/
namespace NetKernel.Scheduler
open Runs Places Function

/-- `impl::Action`, with the condition to wait at. -/
inductive SwitchAction (C : Type*) where
  | ready
  | stop
  | wait (q : C)
  | none
deriving DecidableEq, Repr

/-- The steps of the code of a thread. `work` is code outside the scheduler, and the heap
inside `make_thread` and `dealloc`: it may make calls, `Condition::wait` for one. `capture`
is the first section of `wait`, and `yield`, `wait`, `stop` and `eventLoop` begin with
`readyQueue.remove()`. -/
inductive Instr (C : Type*) where
  | count
  | reap
  | uncount
  | make
  | work
  | yield
  | capture (q : C)
  | wait (q : C)
  | notifyOne (q : C)
  | notifyAll (q : C)
  | stop
  | eventLoop
deriving DecidableEq, Repr

/-- What a core is at, with the threads it has in its hands; `none` is its idle thread.
`leave` is about to switch, `duty` about to call `post_switch`, `add` about to add the
threads to the ready queue, `bury` about to deallocate one; `off` is after `shutdown`. -/
inductive Phase (τ : Type*) where
  | run
  | leave (next : Option τ)
  | duty (prev : Option τ)
  | add (list : List τ)
  | bury (i : τ)
  | off
deriving DecidableEq, Repr

/-- A TCB not allocated yet, in use, or deallocated. An address that `malloc` gives out
again is a new TCB. -/
inductive Life where
  | unborn | live | freed
deriving DecidableEq, Repr

/-- The code of `Sum.inl c` is that of the idle thread of core `c`. `freed` lists the
calls of `TCB::dealloc`. -/
structure State (κ τ C : Type*) where
  running : κ → Option τ
  phase : κ → Phase τ
  code : κ ⊕ τ → List (Instr C)
  ready : List τ
  reaper : List τ
  waiting : C → List τ
  epoch : C → Nat
  action : τ → SwitchAction C
  condEpoch : τ → Nat
  nActive : UInt64
  life : τ → Life
  freed : List τ

/-- The calls a thread makes from its `work`. -/
inductive Op (C : Type*) where
  | create
  | yield
  | wait (q : C)
  | notifyOne (q : C)
  | notifyAll (q : C)
  | stop
deriving DecidableEq, Repr

variable {κ τ C : Type*}

def Op.code : Op C → List (Instr C)
  | .create => [.count, .reap, .work, .make]
  | .yield => [.yield]
  | .wait q => [.capture q, .wait q]
  | .notifyOne q => [.notifyOne q]
  | .notifyAll q => [.notifyAll q]
  | .stop => [.work, .stop]

/-- The calls an idle thread makes: as it boots its core it may create, and the heap
notifies; its `wait` only pauses. -/
def Op.idleCode : Op C → Option (List (Instr C))
  | .create => some [.count, .reap, .work, .make]
  | .notifyOne q => some [.notifyOne q]
  | .notifyAll q => some [.notifyAll q]
  | .wait _ => some []
  | .yield | .stop => none

/-- `entry`, after its `post_switch`. -/
def entryCode : List (Instr C) := [.reap, .work, .stop]

/-- A round of `event_loop`. -/
def loopCode : List (Instr C) := [.reap, .eventLoop]

inductive Action (κ τ C : Type*) where
  | step (c : κ)
  | make (c : κ) (i : τ)
  | op (c : κ) (o : Op C)
  | done (c : κ)

/-- Cores in their idle threads, and no other thread. -/
def start : State κ τ C where
  running _ := none
  phase _ := .run
  code _ := .work :: loopCode
  ready := []
  reaper := []
  waiting _ := []
  epoch _ := 0
  action _ := .none
  condEpoch _ := 0
  nActive := 0
  life _ := .unborn
  freed := []

def State.current (s : State κ τ C) (c : κ) : κ ⊕ τ :=
  match s.running c with
  | none => .inl c
  | some i => .inr i

variable [DecidableEq κ] [DecidableEq τ] [DecidableEq C]

def State.goto (s : State κ τ C) (c : κ) (code : List (Instr C)) : State κ τ C :=
  { s with code := update s.code (s.current c) code }

def State.enter (s : State κ τ C) (c : κ) (phase : Phase τ) : State κ τ C :=
  { s with phase := update s.phase c phase }

/-- `notify_one` and `notify_all` take threads off the queue under the lock, and add them
to the ready queue after it. -/
def State.notify (s : State κ τ C) (c : κ) (q : C) (n : Nat) : State κ τ C :=
  { s with
    waiting := update s.waiting q ((s.waiting q).drop n)
    epoch := update s.epoch q ((s.epoch q+1) % 2^64) }.enter c (.add ((s.waiting q).take n))

/-- The running thread leaves for a thread it took, with its action set. -/
def State.leave (s : State κ τ C) (c : κ) (i : τ) (action : SwitchAction C)
    (next : Option τ) : State κ τ C :=
  { s with action := update s.action i action }.enter c (.leave next)

/-- One step of the code of the thread on core `c`. -/
def exec (s : State κ τ C) (c : κ) : List (Instr C) → Option (State κ τ C)
  | [] | .work :: _ | .make :: _ => none
  | .count :: rest => some ({ s with nActive := s.nActive+1 }.goto c rest)
  | .reap :: rest =>
    match s.reaper with
    | [] => some (s.goto c rest)
    | i :: reaper =>
      some (({ s with reaper := reaper }.goto c (.work :: .uncount :: .reap :: rest)).enter c
        (.bury i))
  | .uncount :: rest =>
    let t : State κ τ C := { s with nActive := s.nActive-1 }
    some (if t.nActive = 0 then t.enter c .off else t.goto c rest)
  | .yield :: rest =>
    match s.running c, s.ready with
    | none, _ => none
    | some _, [] => some (s.goto c rest)
    | some i, j :: ready =>
      some (({ s with ready := ready }.goto c rest).leave c i .ready (some j))
  | .capture q :: rest =>
    match s.running c with
    | none => none
    | some i => some ({ s with condEpoch := update s.condEpoch i (s.epoch q) }.goto c rest)
  | .wait q :: rest =>
    match s.running c, s.ready with
    | none, _ => none
    | some _, [] => some (s.goto c rest)
    | some i, j :: ready =>
      some (({ s with ready := ready }.goto c rest).leave c i (.wait q) (some j))
  | .notifyOne q :: rest => some ((s.goto c rest).notify c q 1)
  | .notifyAll q :: rest => some ((s.goto c rest).notify c q (s.waiting q).length)
  | .stop :: rest =>
    match s.running c, s.ready with
    | none, _ => none
    | some i, [] => some ((s.goto c rest).leave c i .stop none)
    | some i, j :: ready =>
      some (({ s with ready := ready }.goto c rest).leave c i .stop (some j))
  | .eventLoop :: _ =>
    match s.running c, s.ready with
    | some _, _ => none
    | none, [] => some (s.goto c loopCode)
    | none, j :: ready =>
      some (({ s with ready := ready }.goto c loopCode).enter c (.leave (some j)))

/-- `TCB::post_switch` of the thread the core came from; the action of an idle thread is
always `None`. -/
def postSwitch (s : State κ τ C) (c : κ) : Option τ → State κ τ C
  | none => s.enter c .run
  | some i =>
    match s.action i with
    | .ready => { s with ready := s.ready ++ [i] }.enter c .run
    | .stop => { s with reaper := s.reaper ++ [i] }.enter c .run
    | .wait q =>
      if s.epoch q = s.condEpoch i then
        { s with waiting := update s.waiting q (s.waiting q ++ [i]) }.enter c .run
      else s.enter c (.add [i])
    | .none => s.enter c .run

def advance (s : State κ τ C) (c : κ) : Option (State κ τ C) :=
  match s.phase c with
  | .run => exec s c (s.code (s.current c))
  | .leave next =>
    some ({ s with running := update s.running c next }.enter c (.duty (s.running c)))
  | .duty prev => some (postSwitch s c prev)
  | .add [] => some (s.enter c .run)
  | .add (i :: list) => some ({ s with ready := s.ready ++ [i] }.enter c (.add list))
  | .bury i =>
    some ({ s with life := update s.life i .freed, freed := s.freed ++ [i] }.enter c .run)
  | .off => none

/-- `make` is the end of `make_thread`, for a TCB nobody else has seen. -/
def step (s : State κ τ C) : Action κ τ C → Option (State κ τ C)
  | .step c => advance s c
  | .make c i =>
    match s.phase c, s.code (s.current c), s.life i with
    | .run, .make :: rest, .unborn =>
      some { s.goto c rest with
        life := update s.life i .live
        code := update (s.goto c rest).code (.inr i) entryCode
        ready := s.ready ++ [i] }
    | _, _, _ => none
  | .op c o =>
    match s.phase c, s.code (s.current c), s.running c with
    | .run, .work :: rest, some _ => some (s.goto c (o.code ++ .work :: rest))
    | .run, .work :: rest, none => o.idleCode.map fun code => s.goto c (code ++ .work :: rest)
    | _, _, _ => none
  | .done c =>
    match s.phase c, s.code (s.current c) with
    | .run, .work :: rest => some (s.goto c rest)
    | _, _ => none

variable (κ τ C) in
def machine : Machine (State κ τ C) (Action κ τ C) where
  Init s := s = start
  step := step

/-! Where the threads are. -/

/-- Running on a core, in the ready queue, a waiting queue or the reaper queue, taken off a
queue and in the hands of a core, or switched out and before its `post_switch` on a core. -/
inductive Place (κ C : Type*) where
  | running (c : κ)
  | ready
  | waiting (q : C)
  | reaper
  | held (c : κ)
  | out (c : κ)
deriving DecidableEq

def Phase.held : Phase τ → List τ
  | .leave next => next.toList
  | .add list => list
  | .bury i => [i]
  | _ => []

def Phase.out : Phase τ → List τ
  | .duty prev => prev.toList
  | _ => []

def State.content (s : State κ τ C) : Place κ C → List τ
  | .running c => (s.running c).toList
  | .ready => s.ready
  | .waiting q => s.waiting q
  | .reaper => s.reaper
  | .held c => (s.phase c).held
  | .out c => (s.phase c).out

/-- A thread that is switched out has an action. -/
def Switching (s : State κ τ C) : Prop :=
  ∀ c i, (∃ next, s.phase c = .leave next) ∧ s.running c = some i ∨
    s.phase c = .duty (some i) → s.action i ≠ .none

structure Inv (s : State κ τ C) : Prop where
  places : Partition s.content fun i => s.life i = .live
  switching : Switching s
  freed : s.freed.Nodup
  buried : ∀ i, i ∈ s.freed ↔ s.life i = .freed

variable {s t : State κ τ C} {c : κ} {i j : τ} {q : C} {rest : List (Instr C)}

omit [DecidableEq κ] [DecidableEq τ] [DecidableEq C] in
theorem start_inv : Inv (start : State κ τ C) := by
  have hnone (p : Place κ C) : (start : State κ τ C).content p = [] := by cases p <;> rfl
  refine ⟨⟨fun p => ?_, fun i p q hp => ?_, fun i => ?_⟩, fun c i h => ?_, List.nodup_nil,
    fun i => ?_⟩
  · rw [hnone]
    exact List.nodup_nil
  · rw [hnone] at hp
    cases hp
  · refine iff_of_false (by simp [start]) ?_
    rintro ⟨p,hp⟩
    rw [hnone] at hp
    cases hp
  · obtain ⟨⟨next,h⟩,-⟩ | h := h <;> cases h
  · exact iff_of_false List.not_mem_nil (by simp [start])

/-! What a step moves. -/

section Moves
omit [DecidableEq τ]
variable {live : τ → Prop} {next : Phase τ}

theorem content_phase (p : Place κ C) :
    ({ s with phase := update s.phase c next } : State κ τ C).content p =
      if p = .held c then next.held else if p = .out c then next.out else s.content p := by
  cases p with
  | held d =>
    by_cases hd : d = c
    · subst hd
      simp [State.content]
    · simp [State.content, hd]
  | out d =>
    by_cases hd : d = c
    · subst hd
      simp [State.content]
    · simp [State.content, hd]
  | running | ready | waiting | reaper => rfl

theorem places_phase (h : Partition s.content live) (hheld : next.held = (s.phase c).held)
    (hout : next.out = (s.phase c).out) :
    Partition ({ s with phase := update s.phase c next } : State κ τ C).content live := by
  have heq : ({ s with phase := update s.phase c next } : State κ τ C).content = s.content := by
    funext p
    rw [content_phase]
    split
    · rename_i hp
      exact hheld.trans (hp ▸ rfl)
    split
    · rename_i hp
      exact hout.trans (hp ▸ rfl)
    · rfl
  exact heq ▸ h

theorem places_take {u : State κ τ C} {p : Place κ C} {l rest : List τ}
    (h : Partition s.content live) (hc : s.phase c = .run) (hp : s.content p = l ++ rest)
    (hu : u.content = update s.content p rest) (hph : p ≠ .held c) (hpo : p ≠ .out c)
    (hheld : next.held = l) (hout : next.out = []) :
    Partition ({ u with phase := update u.phase c next } : State κ τ C).content live := by
  have hempty : s.content (.held c) = [] ∧ s.content (.out c) = [] := by
    simp [State.content, hc, Phase.held, Phase.out]
  refine h.moved hph hp ?_ ?_ fun r hr hr' => ?_
  · rw [content_phase, if_neg hph, if_neg hpo, hu, update_self]
  · rw [content_phase, if_pos rfl, hempty.1, hheld, List.nil_append]
  · rw [content_phase, if_neg hr']
    split
    · rename_i ho
      rw [ho, hempty.2, hout]
    · rw [hu, update_of_ne hr]

theorem places_put {u : State κ τ C} {p q : Place κ C} {rest : List τ}
    (h : Partition s.content live) (hp : s.content p = i :: rest)
    (hpc : p = .held c ∧ next.held = rest ∧ next.out = s.content (.out c) ∨
      p = .out c ∧ next.out = rest ∧ next.held = s.content (.held c))
    (hu : u.content = update s.content q (s.content q ++ [i])) (hqh : q ≠ .held c)
    (hqo : q ≠ .out c) :
    Partition ({ u with phase := update u.phase c next } : State κ τ C).content live := by
  have hne : p ≠ q := by
    rintro rfl
    obtain ⟨hp,-⟩ | ⟨hp,-⟩ := hpc
    · exact hqh hp
    · exact hqo hp
  refine h.moved (l := [i]) hne hp ?_ ?_ fun r hr hr' => ?_
  · rw [content_phase]
    obtain ⟨rfl,hn,-⟩ | ⟨rfl,hn,-⟩ := hpc
    · rw [if_pos rfl, hn]
    · rw [if_neg (by simp), if_pos rfl, hn]
  · rw [content_phase, if_neg hqh, if_neg hqo, hu, update_self]
  · rw [content_phase]
    obtain ⟨rfl,-,hn⟩ | ⟨rfl,-,hn⟩ := hpc
    · rw [if_neg hr]
      split
      · rename_i ho
        rw [ho, hn]
      · rw [hu, update_of_ne hr']
    · rw [if_neg hr]
      split
      · rename_i ho
        rw [ho, hn]
      · rw [hu, update_of_ne hr']

theorem content_ready (ready : List τ) :
    ({ s with ready := ready } : State κ τ C).content = update s.content .ready ready := by
  funext p
  cases p <;> rfl

theorem content_reaper (reaper : List τ) :
    ({ s with reaper := reaper } : State κ τ C).content = update s.content .reaper reaper := by
  funext p
  cases p <;> rfl

theorem content_waiting (list : List τ) :
    ({ s with waiting := update s.waiting q list } : State κ τ C).content =
      update s.content (.waiting q) list := by
  funext p
  cases p with
  | waiting r =>
    by_cases hr : r = q
    · subst hr
      simp [State.content]
    · simp [State.content, hr]
  | running | ready | reaper | held | out => rfl

theorem content_running (next : Option τ) :
    ({ s with running := update s.running c next } : State κ τ C).content =
      update s.content (.running c) next.toList := by
  funext p
  cases p with
  | running d =>
    by_cases hd : d = c
    · subst hd
      simp [State.content]
    · simp [State.content, hd]
  | ready | waiting | reaper | held | out => rfl

theorem places_switch {next : Option τ} (h : Partition s.content live)
    (hc : s.phase c = .leave next) : Partition ({ s with
      running := update s.running c next
      phase := update s.phase c (.duty (s.running c)) } : State κ τ C).content live := by
  have hout := h.move (p := .running c) (q := .out c) (List.append_nil _).symm
  have hheld : move s.content (.running c) (.out c) (s.content (.running c)) [] (.held c) =
      next.toList ++ [] := by
    rw [move, update_of_ne (by simp), update_of_ne (by simp), List.append_nil]
    change (s.phase c).held = _
    rw [hc]
    rfl
  refine hout.moved (p := .held c) (q := .running c) (by simp) hheld ?_ ?_ fun r hr hr' => ?_
  · simp [State.content, Phase.held]
  · simp [State.content, move]
  · rw [move, content_phase (s := { s with running := update s.running c next }), if_neg hr]
    by_cases ho : r = .out c
    · rw [if_pos ho, ho, update_self, update_of_ne (by simp)]
      have hempty : s.content (.out c) = [] := by
        rw [State.content, hc]
        rfl
      rw [hempty]
      rfl
    · rw [if_neg ho, update_of_ne ho, update_of_ne hr', content_running, update_of_ne hr']

end Moves

/-! The steps. -/

variable {live : τ → Prop}

theorem places_exec {code : List (Instr C)} (h : Partition s.content live)
    (hc : s.phase c = .run) (hs : exec s c code = some t) :
    Partition t.content live := by
  cases code with
  | nil => cases hs
  | cons instr rest =>
    cases instr with
    | count =>
      cases hs
      exact h
    | reap =>
      simp only [exec] at hs
      split at hs <;> cases hs
      · exact h
      · rename_i i reaper hr
        exact places_take (p := .reaper) (l := [i]) h hc hr (content_reaper (s := s) reaper)
          (by simp) (by simp) rfl rfl
    | uncount =>
      simp only [exec, Option.some.injEq] at hs
      subst hs
      split
      · exact places_phase h (by rw [hc]; rfl) (by rw [hc]; rfl)
      · exact h
    | make => cases hs
    | work => cases hs
    | yield =>
      simp only [exec] at hs
      split at hs <;> cases hs
      · exact h
      · rename_i i j ready hrun hr
        exact places_take (p := .ready) (l := [j]) h hc hr (content_ready (s := s) ready)
          (by simp) (by simp) rfl rfl
    | capture q =>
      simp only [exec] at hs
      split at hs <;> cases hs
      exact h
    | wait q =>
      simp only [exec] at hs
      split at hs <;> cases hs
      · exact h
      · rename_i i j ready hrun hr
        exact places_take (p := .ready) (l := [j]) h hc hr (content_ready (s := s) ready)
          (by simp) (by simp) rfl rfl
    | notifyOne q =>
      cases hs
      exact places_take (p := .waiting q) h hc (List.take_append_drop 1 _).symm
        (content_waiting (s := s) _) (by simp) (by simp) rfl rfl
    | notifyAll q =>
      cases hs
      exact places_take (p := .waiting q) h hc (List.take_append_drop _ _).symm
        (content_waiting (s := s) _) (by simp) (by simp) rfl rfl
    | stop =>
      simp only [exec] at hs
      split at hs <;> cases hs
      · exact places_phase (s := s) h (by rw [hc]; rfl) (by rw [hc]; rfl)
      · rename_i i j ready hrun hr
        exact places_take (p := .ready) (l := [j]) h hc hr (content_ready (s := s) ready)
          (by simp) (by simp) rfl rfl
    | eventLoop =>
      simp only [exec] at hs
      split at hs <;> cases hs
      · exact h
      · rename_i j ready hrun hr
        exact places_take (p := .ready) (l := [j]) h hc hr (content_ready (s := s) ready)
          (by simp) (by simp) rfl rfl

theorem exec_life {code : List (Instr C)} (hs : exec s c code = some t) :
    t.life = s.life ∧ t.freed = s.freed := by
  unfold exec at hs
  split at hs
  case h_6 =>
    simp only [Option.some.injEq] at hs
    subst hs
    split <;> exact ⟨rfl, rfl⟩
  all_goals
    try split at hs
    all_goals
      cases hs
      try exact ⟨rfl, rfl⟩

omit [DecidableEq τ] in
theorem places_postSwitch {prev : Option τ} (h : Partition s.content live)
    (hc : s.phase c = .duty prev) (ha : ∀ i, prev = some i → s.action i ≠ .none) :
    Partition (postSwitch s c prev).content live := by
  cases prev with
  | none => exact places_phase h (by rw [hc]; rfl) (by rw [hc]; rfl)
  | some i =>
    have hout : s.content (.out c) = [i] := by
      rw [State.content, hc]
      rfl
    have hheld : s.content (.held c) = [] := by
      rw [State.content, hc]
      rfl
    unfold postSwitch
    dsimp only
    split
    · exact places_put (q := .ready) h hout (Or.inr ⟨rfl, rfl, hheld.symm⟩) (content_ready _)
        (by simp) (by simp)
    · exact places_put (q := .reaper) h hout (Or.inr ⟨rfl, rfl, hheld.symm⟩) (content_reaper _)
        (by simp) (by simp)
    · split
      · exact places_put (q := .waiting _) h hout (Or.inr ⟨rfl, rfl, hheld.symm⟩)
          (content_waiting _) (by simp) (by simp)
      · refine h.moved (p := .out c) (q := .held c) (by simp) (hout.trans (List.append_nil _).symm)
          ?_ ?_ fun r hr hr' => ?_
        · exact (content_phase _).trans ((if_neg (by simp)).trans (if_pos rfl))
        · rw [hheld]
          exact (content_phase _).trans (if_pos rfl)
        · exact (content_phase _).trans ((if_neg hr').trans (if_neg hr))
    · rename_i hnone
      exact absurd hnone (ha i rfl)

omit [DecidableEq τ] [DecidableEq C] in
theorem Switching.of_core (h : Switching s) (ha : ∀ i, s.action i ≠ .none → t.action i ≠ .none)
    (hrun : ∀ d, d ≠ c → t.running d = s.running d) (hphase : ∀ d, d ≠ c → t.phase d = s.phase d)
    (hleave : ∀ i next, t.phase c = .leave next → t.running c = some i → t.action i ≠ .none)
    (hduty : ∀ i, t.phase c = .duty (some i) → t.action i ≠ .none) : Switching t := by
  intro d i hd
  by_cases hdc : d = c
  · subst hdc
    obtain ⟨⟨next,hp⟩,hr⟩ | hp := hd
    · exact hleave i next hp hr
    · exact hduty i hp
  · rw [hphase d hdc, hrun d hdc] at hd
    exact ha i (h d i hd)

omit [DecidableEq C] in
theorem switching_leave {u : State κ τ C} {action : SwitchAction C} {next : Option τ}
    (h : Switching s) (hu : u.action = s.action) (hrun : u.running = s.running)
    (hphase : u.phase = s.phase) (hc : s.running c = some i) (ha : action ≠ .none) :
    Switching (u.leave c i action next) := by
  have hset (j : τ) (hj : j = i ∨ s.action j ≠ .none) :
      (u.leave c i action next).action j ≠ .none := by
    simp only [State.leave, State.enter, hu, update_apply]
    split
    · exact ha
    · rename_i hne
      exact hj.resolve_left hne
  refine h.of_core (c := c) (fun j hj => hset j (Or.inr hj)) (fun d _ => by rw [← hrun]; rfl)
    (fun d hd => ?_) (fun j next _ hj => hset j (Or.inl ?_)) fun j hj => ?_
  · rw [← hphase]
    exact update_of_ne hd _ _
  · have hr : s.running c = some j := by rw [← hrun]; exact hj
    exact Option.some.inj (hr.symm.trans hc)
  · have hp : (u.leave c i action next).phase c = .leave next := update_self _ _ _
    rw [hp] at hj
    cases hj

omit [DecidableEq τ] [DecidableEq C] in
theorem switching_enter {u : State κ τ C} {next : Phase τ} (h : Switching s)
    (hu : u.action = s.action) (hrun : u.running = s.running) (hphase : u.phase = s.phase)
    (hleave : ∀ j, (∃ k, next = .leave k) → s.running c ≠ some j) (hduty : ∀ j, next ≠ .duty j) :
    Switching (u.enter c next) := by
  have hp : (u.enter c next).phase c = next := update_self _ _ _
  refine h.of_core (c := c) (fun j hj => ?_) (fun d _ => by rw [← hrun]; rfl) (fun d hd => ?_)
    (fun j k hk hj => ?_) fun j hj => ?_
  · rw [← hu] at hj
    exact hj
  · rw [← hphase]
    exact update_of_ne hd _ _
  · rw [hp] at hk
    refine absurd ?_ (hleave j ⟨k, hk⟩)
    rw [← hrun]
    exact hj
  · rw [hp] at hj
    exact absurd hj (hduty _)

theorem switching_exec {code : List (Instr C)} (h : Switching s) (hs : exec s c code = some t) :
    Switching t := by
  cases code with
  | nil => cases hs
  | cons instr rest =>
    cases instr with
    | count =>
      cases hs
      exact h
    | reap =>
      simp only [exec] at hs
      split at hs <;> cases hs
      · exact h
      · exact switching_enter h rfl rfl rfl (by simp) (by simp)
    | uncount =>
      simp only [exec, Option.some.injEq] at hs
      subst hs
      split
      · exact switching_enter h rfl rfl rfl (by simp) (by simp)
      · exact h
    | make => cases hs
    | work => cases hs
    | yield =>
      simp only [exec] at hs
      split at hs <;> cases hs
      · exact h
      · rename_i hrun hr
        exact switching_leave h rfl rfl rfl hrun (by simp)
    | capture q =>
      simp only [exec] at hs
      split at hs <;> cases hs
      exact h
    | wait q =>
      simp only [exec] at hs
      split at hs <;> cases hs
      · exact h
      · rename_i hrun hr
        exact switching_leave h rfl rfl rfl hrun (by simp)
    | notifyOne q =>
      cases hs
      exact switching_enter h rfl rfl rfl (by simp) (by simp)
    | notifyAll q =>
      cases hs
      exact switching_enter h rfl rfl rfl (by simp) (by simp)
    | stop =>
      simp only [exec] at hs
      split at hs <;> cases hs
      · rename_i hrun hr
        exact switching_leave h rfl rfl rfl hrun (by simp)
      · rename_i hrun hr
        exact switching_leave h rfl rfl rfl hrun (by simp)
    | eventLoop =>
      simp only [exec] at hs
      split at hs <;> cases hs
      · exact h
      · rename_i hrun hr
        exact switching_enter h rfl rfl rfl (by simp [hrun]) (by simp)

theorem switching_advance (h : Switching s) (hs : advance s c = some t) : Switching t := by
  unfold advance at hs
  split at hs
  · exact switching_exec h hs
  · rename_i next hc
    cases hs
    have hp : update s.phase c (.duty (s.running c)) c = .duty (s.running c) := update_self _ _ _
    refine h.of_core (c := c) (fun j hj => hj) (fun d hd => update_of_ne hd _ _)
      (fun d hd => update_of_ne hd _ _) (fun j k hk => ?_) fun j hj => ?_
    · cases hp.symm.trans hk
    · have hr : s.running c = some j := Phase.duty.inj (hp.symm.trans hj)
      exact h c j (Or.inl ⟨⟨next, hc⟩, hr⟩)
  · rename_i prev hc
    cases hs
    unfold postSwitch
    split
    · exact switching_enter h rfl rfl rfl (by simp) (by simp)
    · split
      · exact switching_enter h rfl rfl rfl (by simp) (by simp)
      · exact switching_enter h rfl rfl rfl (by simp) (by simp)
      · split
        · exact switching_enter h rfl rfl rfl (by simp) (by simp)
        · exact switching_enter h rfl rfl rfl (by simp) (by simp)
      · exact switching_enter h rfl rfl rfl (by simp) (by simp)
  · cases hs
    exact switching_enter h rfl rfl rfl (by simp) (by simp)
  · cases hs
    exact switching_enter h rfl rfl rfl (by simp) (by simp)
  · cases hs
    exact switching_enter h rfl rfl rfl (by simp) (by simp)
  · cases hs

omit [DecidableEq τ] in
theorem postSwitch_life (prev : Option τ) :
    (postSwitch s c prev).life = s.life ∧ (postSwitch s c prev).freed = s.freed := by
  unfold postSwitch
  split
  · exact ⟨rfl, rfl⟩
  · split
    · exact ⟨rfl, rfl⟩
    · exact ⟨rfl, rfl⟩
    · split <;> exact ⟨rfl, rfl⟩
    · exact ⟨rfl, rfl⟩

theorem Inv.bury (h : Inv s) (hc : s.phase c = .bury i) (hswitch : Switching t)
    (ht : t = { s with life := update s.life i .freed, freed := s.freed ++ [i] }.enter c .run) :
    Inv t := by
  have hheld : s.content (.held c) = [i] := by
    rw [State.content, hc]
    rfl
  have hlive : s.life i = .live :=
    (h.places.live i).mpr ⟨.held c, hheld ▸ List.mem_cons_self⟩
  have hnot : i ∉ s.freed := by
    rw [h.buried, hlive]
    decide
  have hcontent : t.content = update s.content (.held c) [] := by
    funext p
    rw [ht]
    refine (content_phase p).trans ?_
    split
    · rename_i hp
      rw [hp, update_self]
      rfl
    · rename_i hp
      rw [update_of_ne hp]
      split
      · rename_i ho
        rw [ho, State.content, hc]
        rfl
      · rfl
  have hlife (j : τ) : t.life j = if j = i then .freed else s.life j := by
    rw [ht]
    exact update_apply _ _ _ _
  have hfreed : t.freed = s.freed ++ [i] := by rw [ht]; rfl
  refine ⟨?_, hswitch, ?_, fun j => ?_⟩
  · rw [hcontent]
    refine (h.places.remove hheld).congr fun j => ?_
    rw [hlife]
    split
    · rename_i hj
      simp [hj]
    · rename_i hj
      simp [hj]
  · rw [hfreed]
    refine List.nodup_append.mpr ⟨h.freed, List.nodup_singleton i, ?_⟩
    rintro a ha b hb rfl
    exact hnot (List.mem_singleton.mp hb ▸ ha)
  · rw [hfreed, hlife, List.mem_append, h.buried, List.mem_singleton]
    split
    · rename_i hj
      simp [hj]
    · rename_i hj
      simp [hj]

theorem Inv.advance (h : Inv s) (hs : Scheduler.advance s c = some t) : Inv t := by
  have hswitch := switching_advance h.switching hs
  unfold Scheduler.advance at hs
  split at hs
  · rename_i hc
    have hplaces := places_exec h.places hc hs
    obtain ⟨hlife,hfreed⟩ := exec_life hs
    refine ⟨?_, hswitch, hfreed ▸ h.freed, fun i => ?_⟩
    · rw [hlife]
      exact hplaces
    · rw [hfreed, hlife]
      exact h.buried i
  · rename_i next hc
    cases hs
    exact ⟨places_switch h.places hc, hswitch, h.freed, h.buried⟩
  · rename_i prev hc
    cases hs
    obtain ⟨hlife,hfreed⟩ := postSwitch_life (s := s) (c := c) prev
    have haction (i : τ) (hp : prev = some i) : s.action i ≠ .none :=
      h.switching c i (Or.inr (hp ▸ hc))
    refine ⟨?_, hswitch, hfreed ▸ h.freed, fun i => ?_⟩
    · rw [hlife]
      exact places_postSwitch h.places hc haction
    · rw [hfreed, hlife]
      exact h.buried i
  · rename_i hc
    cases hs
    exact ⟨places_phase h.places (by rw [hc]; rfl) (by rw [hc]; rfl), hswitch, h.freed, h.buried⟩
  · rename_i i list hc
    cases hs
    have hheld : s.content (.held c) = i :: list := by
      rw [State.content, hc]
      rfl
    have hout : s.content (.out c) = [] := by
      rw [State.content, hc]
      rfl
    exact ⟨places_put (q := .ready) h.places hheld (Or.inl ⟨rfl, rfl, hout.symm⟩)
      (content_ready _) (by simp) (by simp), hswitch, h.freed, h.buried⟩
  · rename_i i hc
    cases hs
    exact h.bury hc hswitch rfl
  · cases hs

theorem Inv.make {code : κ ⊕ τ → List (Instr C)} (h : Inv s) (hi : s.life i = .unborn) :
    Inv { s with
      life := update s.life i .live
      code := code
      ready := s.ready ++ [i] } := by
  have hlife (j : τ) : update s.life i .live j = if j = i then .live else s.life j :=
    update_apply _ _ _ _
  have hnot : ¬s.life i = .live := by simp [hi]
  refine ⟨?_, h.switching, h.freed, fun j => ?_⟩
  · have hadd := h.places.add (q := .ready) hnot
    rw [show s.content .ready = s.ready from rfl, ← content_ready] at hadd
    refine hadd.congr fun j => ?_
    dsimp only
    rw [hlife]
    split
    · rename_i hj
      simp [hj]
    · rename_i hj
      simp [hj]
  · dsimp only
    rw [h.buried, hlife]
    split
    · rename_i hj
      simp [hj, hi]
    · rfl

theorem Inv.step {a : Action κ τ C} (h : Inv s) (hs : Scheduler.step s a = some t) : Inv t := by
  cases a with
  | step c => exact h.advance hs
  | make c i =>
    simp only [Scheduler.step] at hs
    split at hs <;> cases hs
    rename_i hi
    exact h.make hi
  | op c o =>
    simp only [Scheduler.step] at hs
    split at hs
    · cases hs
      exact ⟨h.places, h.switching, h.freed, h.buried⟩
    · obtain ⟨code,-,rfl⟩ := Option.map_eq_some_iff.mp hs
      exact ⟨h.places, h.switching, h.freed, h.buried⟩
    · cases hs
  | done c =>
    simp only [Scheduler.step] at hs
    split at hs <;> cases hs
    exact ⟨h.places, h.switching, h.freed, h.buried⟩

theorem inv_invariant : (machine κ τ C).system.Invariant Inv where
  init := by
    rintro s rfl
    exact start_inv
  step := fun _ _ h ⟨_,_,hs⟩ => h.step hs

theorem life_step {a : Action κ τ C} (hs : step s a = some t) :
    t.life = s.life ∧ t.freed = s.freed ∨
    (∃ i, s.life i = .unborn ∧ t.life = update s.life i .live ∧ t.freed = s.freed) ∨
    ∃ c i, s.phase c = .bury i ∧ t.life = update s.life i .freed ∧ t.freed = s.freed ++ [i] := by
  cases a with
  | step c =>
    simp only [step, advance] at hs
    split at hs
    · exact Or.inl (exec_life hs)
    · cases hs
      exact Or.inl ⟨rfl, rfl⟩
    · cases hs
      exact Or.inl (postSwitch_life _)
    · cases hs
      exact Or.inl ⟨rfl, rfl⟩
    · cases hs
      exact Or.inl ⟨rfl, rfl⟩
    · rename_i i hc
      cases hs
      exact Or.inr (Or.inr ⟨c, i, hc, rfl, rfl⟩)
    · cases hs
  | make c i =>
    simp only [step] at hs
    split at hs <;> cases hs
    rename_i hi
    exact Or.inr (Or.inl ⟨i, hi, rfl, rfl⟩)
  | op c o =>
    simp only [step] at hs
    split at hs
    · cases hs
      exact Or.inl ⟨rfl, rfl⟩
    · obtain ⟨code,-,rfl⟩ := Option.map_eq_some_iff.mp hs
      exact Or.inl ⟨rfl, rfl⟩
    · cases hs
  | done c =>
    simp only [step] at hs
    split at hs <;> cases hs
    exact Or.inl ⟨rfl, rfl⟩

/-- In every run each live thread is in exactly one place, and once there; a TCB is
deallocated once, out of the hands of a core and with no core running it, and is nowhere
after that. -/
theorem one_place (s : State κ τ C) (h : (machine κ τ C).system.Reachable s) :
    (∀ i, s.life i = .live → ∃! p, i ∈ s.content p) ∧
    (∀ p, (s.content p).Nodup) ∧
    (∀ i c d, s.running c = some i → s.running d = some i → c = d) ∧
    s.freed.Nodup ∧
    (∀ i ∈ s.freed, ∀ p, i ∉ s.content p) ∧
    ∀ a t, step s a = some t →
      (∀ i, s.life i = .live → t.life i = .live ∨ t.freed = s.freed ++ [i]) ∧
      (t.freed = s.freed ∨ ∃ c i, s.phase c = .bury i ∧ t.freed = s.freed ++ [i] ∧
        s.life i = .live ∧ ∀ d, s.running d ≠ some i) := by
  have hinv := inv_invariant.reachable h
  obtain ⟨hplaces,-,hfreed,hburied⟩ := hinv
  refine ⟨fun i => hplaces.existsUnique, hplaces.nodup, fun i c d hc hd => ?_, hfreed,
    fun i hi p hp => ?_, fun a t hs => ?_⟩
  · have heq := hplaces.unique i (.running c) (.running d) (by simp [State.content, hc])
      (by simp [State.content, hd])
    exact Place.running.inj heq
  · have hlive := (hplaces.live i).mpr ⟨p, hp⟩
    rw [hburied, hlive] at hi
    cases hi
  · obtain ⟨hl,hf⟩ | ⟨i,hi,hl,hf⟩ | ⟨c,i,hc,hl,hf⟩ := life_step hs
    · exact ⟨fun j hj => Or.inl (hl ▸ hj), Or.inl hf⟩
    · refine ⟨fun j hj => Or.inl ?_, Or.inl hf⟩
      have hne : j ≠ i := by
        rintro rfl
        rw [hj] at hi
        cases hi
      rw [hl, update_of_ne hne]
      exact hj
    · have hheld : i ∈ s.content (.held c) := by simp [State.content, hc, Phase.held]
      refine ⟨fun j hj => ?_, Or.inr ⟨c, i, hc, hf, (hplaces.live i).mpr ⟨_, hheld⟩, fun d hd => ?_⟩⟩
      · by_cases hji : j = i
        · exact Or.inr (hji ▸ hf)
        · rw [hl, update_of_ne hji]
          exact Or.inl hj
      · have heq := hplaces.unique i (.held c) (.running d) hheld (by simp [State.content, hd])
        cases heq

/-- Core 0 creates two threads. The first runs on core 1 and waits there; the second
notifies it, stops and is taken off the reaper queue by core 0. -/
def twoCores : List (Action Nat Nat Unit) :=
  [.op 0 .create, .step 0, .step 0, .done 0, .make 0 7, .op 0 .create, .step 0, .step 0, .done 0,
    .make 0 8, .done 1, .step 1, .step 1, .step 1, .step 1, .step 1, .op 1 (.wait ()), .step 1,
    .step 1, .step 1, .step 1, .step 1, .op 1 (.notifyOne ()), .step 1, .step 1, .step 1,
    .done 1, .step 1, .step 1, .step 1, .done 0, .step 0]

def twoCoresState : State Nat Nat Unit := (machine Nat Nat Unit).run start twoCores

theorem one_place_twoCores :
    twoCoresState.running 1 = some 7 ∧ twoCoresState.phase 0 = .bury 8 ∧
    (∃! p, 8 ∈ twoCoresState.content p) ∧ (∃! p, 7 ∈ twoCoresState.content p) ∧
    ((machine Nat Nat Unit).run twoCoresState [.step 0]).freed = [8] ∧
    ∀ p, 8 ∉ ((machine Nat Nat Unit).run twoCoresState [.step 0]).content p := by
  have hr : (machine Nat Nat Unit).system.Reachable twoCoresState :=
    Machine.reachable_run (.init rfl) Machine.allowed_true
  have hnext : (machine Nat Nat Unit).system.Reachable
      ((machine Nat Nat Unit).run twoCoresState [.step 0]) :=
    Machine.reachable_run hr Machine.allowed_true
  obtain ⟨honce,-⟩ := one_place twoCoresState hr
  have hfreed : ((machine Nat Nat Unit).run twoCoresState [.step 0]).freed = [8] := by
    decide +kernel
  obtain ⟨-,-,-,-,hgone,-⟩ := one_place _ hnext
  exact ⟨by decide +kernel, by decide +kernel, honce 8 (by decide +kernel),
    honce 7 (by decide +kernel), hfreed, hgone 8 (hfreed ▸ List.mem_cons_self)⟩

end NetKernel.Scheduler
