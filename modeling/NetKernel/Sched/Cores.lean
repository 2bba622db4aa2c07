import Mathlib.Algebra.Group.Nat.Defs
import Mathlib.Data.List.Nodup
import NetKernel.Lib.Runs

/-! Threads on cores: spin locks, blocking locks over `Condition`, the ready queue, and
the work a thread does for the one its core came from. Code is a list of steps, each
touching one lock or one queue. -/
namespace NetKernel.Cores
open Runs

/-- A spin lock of its own or the `spin` inside a blocking lock. -/
inductive Spin (L B : Type*) where
  | named (l : L)
  | inner (b : B)
deriving DecidableEq, Repr

/-- `test` is the head of the loop of `BlockingLock::lock`, `look` the choice of a next
thread in `Condition::wait`, `clear` the body of `BlockingLock::unlock`. `enqueue` puts
the thread held off every queue into the ready queue; `recheck` is the section of
`post_switch` for a waiter. -/
inductive Instr (L B : Type*) where
  | acquire (l : Spin L B)
  | release (l : Spin L B)
  | test (b : B)
  | look (b : B)
  | clear (b : B)
  | enqueue
  | recheck (b : B)
deriving DecidableEq, Repr

/-- `held` is the thread that a running thread has taken off a queue or come from, and
has not put anywhere yet. -/
structure State (κ τ L B : Type*) where
  running : κ → Option τ
  ready : List τ
  code : τ → List (Instr L B)
  held : τ → Option τ
  owner : Spin L B → Option τ
  locked : B → Bool
  waiting : B → List τ
  epoch : B → Nat
  condEpoch : τ → Nat

/-- What a core does next: run a ready thread when it has none, step through its thread's
code, start a call, or yield from user mode. -/
inductive Action (κ L B : Type*) where
  | dispatch (c : κ)
  | exec (c : κ)
  | call (c : κ) (code : List (Instr L B))
  | yield (c : κ)

variable {κ τ L B : Type*}

/-- Threads in user mode in the ready queue, idle cores and free locks. -/
def start (ready : List τ) : State κ τ L B where
  running _ := none
  ready := ready
  code _ := []
  held _ := none
  owner _ := none
  locked _ := false
  waiting _ := []
  epoch _ := 0
  condEpoch _ := 0

/-! Every thread is in at most one place. -/

inductive Place (κ τ B : Type*) where
  | running (c : κ)
  | ready
  | waiting (b : B)
  | held (j : τ)

def At (s : State κ τ L B) (i : τ) : Place κ τ B → Prop
  | .running c => s.running c = some i
  | .ready => i ∈ s.ready
  | .waiting b => i ∈ s.waiting b
  | .held j => s.held j = some i

variable {s t : State κ τ L B}

structure Placed (s : State κ τ L B) : Prop where
  unique : ∀ i p q, At s i p → At s i q → p = q
  ready : s.ready.Nodup
  waiting : ∀ b, (s.waiting b).Nodup

/-- Each thread stays within the places it had, or has a single one. -/
def Moves (s t : State κ τ L B) : Prop :=
  ∀ i, (∀ p, At t i p → At s i p) ∨ ∃ q, ∀ p, At t i p → p = q

theorem Placed.moves (h : Placed s) (hm : Moves s t) (hr : t.ready.Nodup)
    (hw : ∀ b, (t.waiting b).Nodup) : Placed t := by
  refine ⟨fun i p q hp hq => ?_, hr, hw⟩
  obtain hold | ⟨x,hx⟩ := hm i
  · exact h.unique i p q (hold p hp) (hold q hq)
  · rw [hx p hp, hx q hq]

theorem Placed.shift (h : Placed s) {k : τ} {p q : Place κ τ B} (hk : At s k p)
    (hat : ∀ j x, At t j x → j = k ∧ x = q ∨ (j = k → x ≠ p) ∧ At s j x) (hr : t.ready.Nodup)
    (hw : ∀ b, (t.waiting b).Nodup) : Placed t := by
  refine h.moves (fun j => ?_) hr hw
  by_cases hj : j = k
  · subst hj
    refine Or.inr ⟨q, fun x hx => ?_⟩
    obtain ⟨-,hxq⟩ | ⟨hne,hold⟩ := hat j x hx
    · exact hxq
    · exact absurd (h.unique j x p hold hk) (hne rfl)
  · refine Or.inl fun x hx => ?_
    obtain ⟨hjk,-⟩ | ⟨-,hold⟩ := hat j x hx
    · exact absurd hjk hj
    · exact hold

theorem Placed.same (h : Placed s) (hrun : t.running = s.running) (hready : t.ready = s.ready)
    (hheld : t.held = s.held) (hwait : t.waiting = s.waiting) : Placed t := by
  refine h.moves (fun i => Or.inl fun p hp => ?_) (hready ▸ h.ready) fun b => hwait ▸ h.waiting b
  cases p with
  | running c => simpa only [At, hrun] using hp
  | ready => simpa only [At, hready] using hp
  | waiting b => simpa only [At, hwait] using hp
  | held j => simpa only [At, hheld] using hp

theorem start_placed (ready : List τ) (h : ready.Nodup) :
    Placed (start ready : State κ τ L B) := by
  refine ⟨fun i p q hp hq => ?_, h, fun b => List.nodup_nil⟩
  cases p <;> cases q <;> simp_all [At, start]

/-! Where a thread is after a change of one place. -/

theorem at_ready {j : τ} {ready : List τ} {x : Place κ τ B} (h : At { s with ready := ready } j x) :
    x = .ready ∧ j ∈ ready ∨ x ≠ .ready ∧ At s j x := by
  cases x with
  | ready => exact Or.inl ⟨rfl, h⟩
  | _ => exact Or.inr ⟨nofun, h⟩

theorem at_running [DecidableEq κ] {j : τ} {c : κ} {o : Option τ} {x : Place κ τ B}
    (h : At { s with running := Function.update s.running c o } j x) :
    x = .running c ∧ o = some j ∨ x ≠ .running c ∧ At s j x := by
  cases x with
  | running c' =>
    by_cases hc : c' = c
    · subst hc
      exact Or.inl ⟨rfl, by simpa only [At, Function.update_self] using h⟩
    · exact Or.inr ⟨by simpa using hc, by simpa only [At, Function.update_of_ne hc] using h⟩
  | _ => exact Or.inr ⟨nofun, h⟩

theorem at_held [DecidableEq τ] {i j : τ} {o : Option τ} {x : Place κ τ B}
    (h : At { s with held := Function.update s.held i o } j x) :
    x = .held i ∧ o = some j ∨ x ≠ .held i ∧ At s j x := by
  cases x with
  | held m =>
    by_cases hm : m = i
    · subst hm
      exact Or.inl ⟨rfl, by simpa only [At, Function.update_self] using h⟩
    · exact Or.inr ⟨by simpa using hm, by simpa only [At, Function.update_of_ne hm] using h⟩
  | _ => exact Or.inr ⟨nofun, h⟩

theorem at_waiting [DecidableEq B] {j : τ} {b : B} {queue : List τ} {x : Place κ τ B}
    (h : At { s with waiting := Function.update s.waiting b queue } j x) :
    x = .waiting b ∧ j ∈ queue ∨ x ≠ .waiting b ∧ At s j x := by
  cases x with
  | waiting b' =>
    by_cases hb : b' = b
    · subst hb
      exact Or.inl ⟨rfl, by simpa only [At, Function.update_self] using h⟩
    · exact Or.inr ⟨by simpa using hb, by simpa only [At, Function.update_of_ne hb] using h⟩
  | _ => exact Or.inr ⟨nofun, h⟩

/-! The steps. -/

variable [DecidableEq κ] [DecidableEq τ]

def State.goto (s : State κ τ L B) (i : τ) (code : List (Instr L B)) : State κ τ L B :=
  { s with code := Function.update s.code i code }

/-- Core `c` leaves `i` for `j`, which first runs `duty` for `i`. -/
def State.switch (s : State κ τ L B) (c : κ) (i j : τ) (duty : List (Instr L B)) :
    State κ τ L B :=
  { s with
    running := Function.update s.running c (some j)
    held := Function.update s.held j (some i)
    code := Function.update s.code j (duty ++ s.code j) }

variable {i j : τ} {c : κ}

omit [DecidableEq τ] in
theorem Placed.dispatch {ready : List τ} (h : Placed s) (hr : s.ready = i :: ready) :
    Placed { s with running := Function.update s.running c (some i), ready := ready } := by
  have hn := h.ready
  rw [hr] at hn
  obtain ⟨hnot,hn⟩ := List.nodup_cons.mp hn
  have hi : At s i .ready := by
    change i ∈ s.ready
    rw [hr]
    exact List.mem_cons_self
  refine h.shift (q := .running c) hi (fun j x hx => ?_) hn h.waiting
  obtain ⟨rfl,ho⟩ | ⟨-,hx⟩ := at_running (s := { s with ready := ready }) hx
  · exact Or.inl ⟨(Option.some.inj ho).symm, rfl⟩
  obtain ⟨rfl,hm⟩ | ⟨hne,hx⟩ := at_ready hx
  · refine Or.inr ⟨fun hji => absurd (hji ▸ hm) hnot, ?_⟩
    change j ∈ s.ready
    rw [hr]
    exact List.mem_cons_of_mem _ hm
  · exact Or.inr ⟨fun _ => hne, hx⟩

theorem Placed.switch {ready : List τ} {code : τ → List (Instr L B)} {duty : List (Instr L B)}
    (h : Placed s) (hc : s.running c = some i) (hr : s.ready = j :: ready) :
    Placed ({ s with ready := ready, code := code }.switch c i j duty) := by
  have hi : At s i (.running c) := hc
  have hleft : Placed { s with
      running := Function.update s.running c none
      held := Function.update s.held j (some i) } := by
    refine h.shift (q := .held j) hi (fun k x hx => ?_) h.ready h.waiting
    obtain ⟨rfl,ho⟩ | ⟨-,hx⟩ :=
      at_held (s := { s with running := Function.update s.running c none }) hx
    · exact Or.inl ⟨(Option.some.inj ho).symm, rfl⟩
    obtain ⟨-,ho⟩ | ⟨hne,hx⟩ := at_running hx
    · cases ho
    · exact Or.inr ⟨fun _ => hne, hx⟩
  exact (hleft.dispatch hr).same (Function.update_idem ..).symm rfl rfl rfl

variable [DecidableEq L] [DecidableEq B]

/-- One step of the code of `i` on core `c`. -/
def exec (s : State κ τ L B) (c : κ) (i : τ) :
    List (Instr L B) → Option (State κ τ L B)
  | [] => none
  | .acquire l :: rest =>
    match s.owner l with
    | none => some ({ s with owner := Function.update s.owner l (some i) }.goto i rest)
    | some _ => none
  | .release l :: rest =>
    some ({ s with owner := Function.update s.owner l none }.goto i rest)
  | .test b :: rest =>
    if s.locked b then
      some ({ s with condEpoch := Function.update s.condEpoch i (s.epoch b) }.goto i
        (.release (.inner b) :: .look b :: rest))
    else
      some ({ s with locked := Function.update s.locked b true }.goto i
        (.release (.inner b) :: rest))
  | .look b :: rest =>
    let back := .acquire (.inner b) :: .test b :: rest
    match s.ready with
    | [] => some (s.goto i back)
    | j :: ready => some (({ s with ready := ready }.goto i back).switch c i j
        [.acquire (.inner b), .recheck b])
  | .clear b :: rest =>
    some ({ s with
      locked := Function.update s.locked b false
      held := Function.update s.held i (s.waiting b).head?
      waiting := Function.update s.waiting b (s.waiting b).tail
      epoch := Function.update s.epoch b ((s.epoch b+1) % 2^64) }.goto i
        (.release (.inner b) :: .enqueue :: rest))
  | .enqueue :: rest =>
    match s.held i with
    | none => some (s.goto i rest)
    | some k => some ({ s with
        ready := s.ready ++ [k]
        held := Function.update s.held i none }.goto i rest)
  | .recheck b :: rest =>
    match s.held i with
    | none => some (s.goto i (.release (.inner b) :: rest))
    | some k =>
      if s.epoch b = s.condEpoch k then
        some ({ s with
          waiting := Function.update s.waiting b (s.waiting b ++ [k])
          held := Function.update s.held i none }.goto i (.release (.inner b) :: rest))
      else some (s.goto i (.release (.inner b) :: .enqueue :: rest))

/-- Calls start and threads yield in user mode, where no code is left. The kernel itself
is not pre-empted. -/
def step (s : State κ τ L B) : Action κ L B → Option (State κ τ L B)
  | .dispatch c =>
    match s.running c, s.ready with
    | none, i :: ready =>
      some { s with running := Function.update s.running c (some i), ready := ready }
    | _, _ => none
  | .exec c =>
    match s.running c with
    | some i => exec s c i (s.code i)
    | none => none
  | .call c code =>
    match s.running c with
    | some i => if s.code i = [] then some (s.goto i code) else none
    | none => none
  | .yield c =>
    match s.running c, s.ready with
    | some i, j :: ready =>
      if s.code i = [] then some ({ s with ready := ready }.switch c i j [.enqueue]) else none
    | _, _ => none

variable (κ τ L B) in
def machine : Machine (State κ τ L B) (Action κ L B) where
  Init s := ∃ ready : List τ, ready.Nodup ∧ s = start ready
  step := step

/-! The steps keep every thread in its place. -/

variable {rest : List (Instr L B)} {b : B} {k : τ}

omit [DecidableEq κ] [DecidableEq L] in
theorem Placed.takeWaiting (h : Placed s) :
    Placed { s with
      held := Function.update s.held i (s.waiting b).head?
      waiting := Function.update s.waiting b (s.waiting b).tail } := by
  have hnodup (b' : B) : (Function.update s.waiting b (s.waiting b).tail b').Nodup := by
    by_cases hb : b' = b
    · subst hb
      rw [Function.update_self]
      exact (h.waiting b').sublist (List.tail_sublist _)
    · rw [Function.update_of_ne hb]
      exact h.waiting b'
  have hat {j : τ} {x : Place κ τ B} (hx : At { s with
      held := Function.update s.held i (s.waiting b).head?
      waiting := Function.update s.waiting b (s.waiting b).tail } j x) :
      x = .held i ∧ (s.waiting b).head? = some j ∨
        (x = .waiting b → j ∈ (s.waiting b).tail) ∧ At s j x := by
    obtain ⟨rfl,ho⟩ | ⟨-,hx⟩ := at_held
      (s := { s with waiting := Function.update s.waiting b (s.waiting b).tail }) hx
    · exact Or.inl ⟨rfl, ho⟩
    obtain ⟨rfl,hm⟩ | ⟨hne,hx⟩ := at_waiting hx
    · exact Or.inr ⟨fun _ => hm, List.mem_of_mem_tail hm⟩
    · exact Or.inr ⟨fun he => absurd he hne, hx⟩
  cases hhead : (s.waiting b).head? with
  | none =>
    refine h.moves (fun j => Or.inl fun x hx => ?_) h.ready hnodup
    rw [← hhead] at hx
    obtain ⟨-,ho⟩ | ⟨-,hx⟩ := hat hx
    · rw [hhead] at ho
      cases ho
    · exact hx
  | some k =>
    have hk : At s k (.waiting b) := List.mem_of_mem_head? hhead
    have hnot : k ∉ (s.waiting b).tail := fun hm => by
      have hn := h.waiting b
      rw [List.eq_cons_of_mem_head? hhead] at hn
      exact (List.nodup_cons.mp hn).1 hm
    refine h.shift (q := .held i) hk (fun j x hx => ?_) h.ready hnodup
    rw [← hhead] at hx
    obtain ⟨rfl,ho⟩ | ⟨hq,hx⟩ := hat hx
    · exact Or.inl ⟨Option.some.inj (ho.symm.trans hhead), rfl⟩
    · exact Or.inr ⟨fun hjk he => hnot (hjk ▸ hq he), hx⟩

omit [DecidableEq κ] [DecidableEq L] [DecidableEq B] in
theorem Placed.toReady (h : Placed s) (hk : s.held i = some k) :
    Placed { s with ready := s.ready ++ [k], held := Function.update s.held i none } := by
  have hheld : At s k (.held i) := hk
  have hnot : k ∉ s.ready := fun hm => by cases h.unique k .ready (.held i) hm hheld
  refine h.shift (q := .ready) hheld (fun j x hx => ?_) ?_ h.waiting
  · obtain ⟨-,ho⟩ | ⟨hne,hx⟩ := at_held (s := { s with ready := s.ready ++ [k] }) hx
    · cases ho
    obtain ⟨rfl,hm⟩ | ⟨-,hx⟩ := at_ready hx
    · obtain hm | hm := List.mem_append.mp hm
      · exact Or.inr ⟨fun _ => hne, hm⟩
      · exact Or.inl ⟨List.mem_singleton.mp hm, rfl⟩
    · exact Or.inr ⟨fun _ => hne, hx⟩
  · refine List.nodup_append.mpr ⟨h.ready, List.nodup_singleton k, ?_⟩
    rintro a ha x hx rfl
    exact hnot (List.mem_singleton.mp hx ▸ ha)

omit [DecidableEq κ] [DecidableEq L] in
theorem Placed.toWaiting (h : Placed s) (hk : s.held i = some k) :
    Placed { s with
      waiting := Function.update s.waiting b (s.waiting b ++ [k])
      held := Function.update s.held i none } := by
  have hheld : At s k (.held i) := hk
  have hnot : k ∉ s.waiting b := fun hm => by cases h.unique k (.waiting b) (.held i) hm hheld
  refine h.shift (q := .waiting b) hheld (fun j x hx => ?_) h.ready fun b' => ?_
  · obtain ⟨-,ho⟩ | ⟨hne,hx⟩ := at_held
      (s := { s with waiting := Function.update s.waiting b (s.waiting b ++ [k]) }) hx
    · cases ho
    obtain ⟨rfl,hm⟩ | ⟨-,hx⟩ := at_waiting hx
    · obtain hm | hm := List.mem_append.mp hm
      · exact Or.inr ⟨fun _ => hne, hm⟩
      · exact Or.inl ⟨List.mem_singleton.mp hm, rfl⟩
    · exact Or.inr ⟨fun _ => hne, hx⟩
  · by_cases hb : b' = b
    · subst hb
      simp only [Function.update_self]
      refine List.nodup_append.mpr ⟨h.waiting b', List.nodup_singleton k, ?_⟩
      rintro a ha x hx rfl
      exact hnot (List.mem_singleton.mp hx ▸ ha)
    · simp only [Function.update_of_ne hb]
      exact h.waiting b'

theorem Placed.exec (h : Placed s) (hc : s.running c = some i)
    (hs : Cores.exec s c i (s.code i) = some t) : Placed t := by
  cases hcode : s.code i with
  | nil =>
    rw [hcode] at hs
    cases hs
  | cons instr rest =>
    rw [hcode] at hs
    cases instr with
    | acquire l =>
      simp only [Cores.exec] at hs
      split at hs <;> cases hs
      exact h.same rfl rfl rfl rfl
    | release l =>
      cases hs
      exact h.same rfl rfl rfl rfl
    | test b =>
      simp only [Cores.exec] at hs
      split at hs <;> cases hs <;> exact h.same rfl rfl rfl rfl
    | look b =>
      simp only [Cores.exec] at hs
      split at hs
      · cases hs
        exact h.same rfl rfl rfl rfl
      · rename_i hr
        cases hs
        exact h.switch hc hr
    | clear b =>
      cases hs
      exact (h.takeWaiting (i := i) (b := b)).same rfl rfl rfl rfl
    | enqueue =>
      simp only [Cores.exec] at hs
      split at hs
      · cases hs
        exact h.same rfl rfl rfl rfl
      · rename_i hk
        cases hs
        exact (h.toReady hk).same rfl rfl rfl rfl
    | recheck b =>
      simp only [Cores.exec] at hs
      split at hs
      · cases hs
        exact h.same rfl rfl rfl rfl
      · rename_i hk
        split at hs <;> cases hs
        · exact (h.toWaiting (b := b) hk).same rfl rfl rfl rfl
        · exact h.same rfl rfl rfl rfl

theorem Placed.step {a : Action κ L B} (h : Placed s) (hs : Cores.step s a = some t) :
    Placed t := by
  cases a with
  | dispatch c =>
    simp only [Cores.step] at hs
    split at hs <;> cases hs
    exact h.dispatch ‹_›
  | exec c =>
    simp only [Cores.step] at hs
    split at hs
    · rename_i hc
      exact h.exec hc hs
    · cases hs
  | call c code =>
    simp only [Cores.step] at hs
    split at hs
    · split at hs <;> cases hs
      exact h.same rfl rfl rfl rfl
    · cases hs
  | yield c =>
    simp only [Cores.step] at hs
    split at hs
    · rename_i hc hr
      split at hs <;> cases hs
      exact h.switch hc hr
    · cases hs

theorem placed_invariant (C : State κ τ L B → Action κ L B → Prop) :
    ((machine κ τ L B).under C).Invariant Placed where
  init := by
    rintro s ⟨ready,hn,rfl⟩
    exact start_placed ready hn
  step := by
    rintro s t h ⟨a,-,hs⟩
    exact h.step hs

end NetKernel.Cores
