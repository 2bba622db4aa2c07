import NetKernel.Sched.SemaphoreValue

/-! The semaphores of the system: `semget`, `semop` and `semctl` as sections under `sem_lock`
and under the lock of one semaphore. A lookup and the removal it leads to are two sections,
and others may come between. -/
namespace NetKernel.SemaphoreTables
open Runs Conditions KernelSemaphores

/-- The size of `the_heap`. A semaphore is never freed and takes at least a byte of it. -/
abbrev heapBytes : Nat := 6*1024*1024

/-- One `KernelSemaphore` with the threads inside `semaphore_op` or at its removal. -/
structure Entry where
  id : Int
  key : Int
  state : SemState

/-- The system calls with their arguments; `bufferOk` is `user_buffer_ok` for the operation,
`semNum` and `op` are read from it. -/
inductive Request where
  | semget (key nsems : Int)
  | semop (semid : Int) (nsops : Nat) (bufferOk : Bool) (semNum : Nat) (op : Int16)
  | semctl (semid semnum cmd : Int)
deriving DecidableEq

/-- A thread is in no call, in one that has not taken `sem_lock`, or past the lookup with a
pointer to a semaphore. `since` is the number of calls that had returned when it began. -/
inductive Thread where
  | outside
  | called (request : Request) (since : Nat)
  | inSem (k : Nat) (since : Nat)

/-- A call that has returned. -/
inductive Finished where
  | get (key result : Int)
  | op (semid : Int) (call : SemCall) (result : Int) (since : Nat)
deriving DecidableEq

/-- The list `semaphores` runs from number `count-1` down to 0; `log` has the calls in the
order in which they returned. -/
structure Table where
  count : Nat
  sems : Nat → Entry
  nextSemid : Int
  threads : Nat → Thread
  log : List Finished

def Table.boot : Table where
  count := 0
  sems _ := ⟨0, 0, start newSemaphore⟩
  nextSemid := 1
  threads _ := .outside
  log := []

/-- The first semaphore of the list that satisfies `p`. -/
def Table.scan (t : Table) (p : Entry → Bool) : Option Nat :=
  (List.range t.count).reverse.find? fun k => p (t.sems k)

def Table.findSemLocked (t : Table) (semid : Int) : Option Nat := t.scan fun e => e.id == semid

def Table.finish (t : Table) (i : Nat) (e : Finished) : Table :=
  { t with threads := Function.update t.threads i .outside, log := t.log ++ [e] }

def Table.setState (t : Table) (k : Nat) (state : SemState) : Table :=
  { t with sems := Function.update t.sems k { t.sems k with state := state } }

/-- Past the lookup, about to take the lock of semaphore `k`. -/
def Table.enter (t : Table) (i k : Nat) (call : SemCall) (since : Nat) : Table :=
  { t.setState k ((t.sems k).state.put i (.inside call)) with
    threads := Function.update t.threads i (.inSem k since) }

/-- A new semaphore at the head of the list; ids are of type `int`. -/
def Table.push (t : Table) (key : Int) : Table :=
  { t with
    count := t.count+1
    sems := Function.update t.sems t.count ⟨t.nextSemid, key, start newSemaphore⟩
    nextSemid := (t.nextSemid+1).bmod 4294967296 }

/-- The part of `semget` that makes a semaphore; `none` where `operator new` panics. -/
def Table.create (t : Table) (i : Nat) (key : Int) : Option Table :=
  if t.count < heapBytes then some ((t.push key).finish i (.get key t.nextSemid)) else none

/-- The section under `sem_lock`, with the tests of the arguments around it. -/
def Table.lookup (t : Table) (i : Nat) (since : Nat) : Request → Option Table
  | .semget key nsems =>
    if nsems ≠ 1 then some (t.finish i (.get key (-1)))
    else if key = 0 then t.create i key
    else match t.scan fun e => !e.state.data.removed && e.key == key with
      | some k => some (t.finish i (.get key (t.sems k).id))
      | none => t.create i key
  | .semop semid nsops bufferOk semNum op =>
    if nsops ≠ 1 ∨ bufferOk = false then some (t.finish i (.op semid (.semop op) (-1) since))
    else match t.findSemLocked semid with
      | none => some (t.finish i (.op semid (.semop op) (-1) since))
      | some k =>
        if (t.sems k).state.data.removed then some (t.finish i (.op semid (.semop op) (-1) since))
        else if semNum ≠ 0 then some (t.finish i (.op semid (.semop op) (-1) since))
        else some (t.enter i k (.semop op) since)
  | .semctl semid semnum cmd =>
    if semnum ≠ 0 ∨ cmd ≠ 0 then some (t.finish i (.op semid .rmid (-1) since))
    else match t.findSemLocked semid with
      | none => some (t.finish i (.op semid .rmid (-1) since))
      | some k =>
        if (t.sems k).state.data.removed then some (t.finish i (.op semid .rmid (-1) since))
        else some (t.enter i k .rmid since)

/-- A section under the lock of semaphore `k`; the last one of a call returns. -/
def Table.section (t : Table) (i k since : Nat) : Option Table :=
  match (t.sems k).state.status i with
  | .inside call =>
    (Conditions.step semaphoreBody (t.sems k).state (.critical i)).map fun state =>
      match semaphoreBody (t.sems k).state.data call with
      | .wait => t.setState k state
      | .leave _ _ result => (t.setState k state).finish i (.op (t.sems k).id call result since)
  | _ => none

inductive TableAction where
  | start (i : Nat) (request : Request)
  | lookup (i : Nat)
  | critical (i : Nat)
  | retry (i : Nat)
  | postSwitch (i : Nat)
deriving DecidableEq

def tableStep (t : Table) : TableAction → Option Table
  | .start i request =>
    match t.threads i with
    | .outside => some { t with
        threads := Function.update t.threads i (.called request t.log.length) }
    | _ => none
  | .lookup i =>
    match t.threads i with
    | .called request since => t.lookup i since request
    | _ => none
  | .critical i =>
    match t.threads i with
    | .inSem k since => t.section i k since
    | _ => none
  | .retry i =>
    match t.threads i with
    | .inSem k _ =>
      (Conditions.step semaphoreBody (t.sems k).state (.retry i)).map (t.setState k)
    | _ => none
  | .postSwitch i =>
    match t.threads i with
    | .inSem k _ =>
      (Conditions.step semaphoreBody (t.sems k).state (.postSwitch i)).map (t.setState k)
    | _ => none

def tableMachine : Machine Table TableAction where
  Init t := t = .boot
  step := tableStep

/-- A call of `semctl` on the semaphore that returned 0. -/
def Removes (id : Int) : Finished → Prop
  | .op semid call result _ => semid = id ∧ call = .rmid ∧ result = 0
  | .get _ _ => False

instance (id : Int) : ∀ e, Decidable (Removes id e)
  | .op _ _ _ _ => inferInstanceAs (Decidable (_ ∧ _))
  | .get _ _ => isFalse False.elim

structure RemovedOnce (t : Table) : Prop where
  once : ∀ id, t.log.countP (fun e => Removes id e) ≤ 1
  later : ∀ id op since, .op id (.semop op) 0 since ∈ t.log →
    ∀ e ∈ t.log.take since, ¬ Removes id e
  unique : ∀ k l, k < t.count → l < t.count → (t.sems k).state.data.removed = false →
    (t.sems l).state.data.removed = false → (t.sems k).key = (t.sems l).key →
    (t.sems k).key ≠ 0 → k = l

/-- A removal finds the semaphore not removed when it has its lock. -/
def FindsPresent (t : Table) : TableAction → Prop
  | .critical i => ∀ k since, t.threads i = .inSem k since →
      (t.sems k).state.status i = .inside .rmid → (t.sems k).state.data.removed = false
  | _ => True

/-! What the steps can do. -/

section Steps
variable {t u : Table} {i k since : Nat} {p : Entry → Bool} {request : Request} {e : Finished}

theorem scan_some (h : t.scan p = some k) : k < t.count ∧ p (t.sems k) = true := by
  have hmem := List.mem_of_find?_eq_some h
  rw [List.mem_reverse, List.mem_range] at hmem
  have hp := List.find?_some h
  exact ⟨hmem, hp⟩

theorem scan_none (h : t.scan p = none) (hk : k < t.count) : p (t.sems k) = false := by
  have hall := List.find?_eq_none.mp h k (List.mem_reverse.mpr (List.mem_range.mpr hk))
  exact Bool.not_eq_true _ ▸ hall

/-- A call that returned without success, or a `semget`. -/
def Harmless (e : Finished) : Prop := ∀ semid call since, e ≠ .op semid call 0 since

/-- The times at which calls begin do not lie ahead. -/
def Stamped (t : Table) (e : Finished) : Prop :=
  ∀ semid call result since, e = .op semid call result since → since ≤ t.log.length

/-- A lookup ends its call without effect, makes a semaphore for a key that no semaphore
in use has, or goes on to a semaphore in use. -/
theorem lookup_cases (h : t.lookup i since request = some u) :
    (∃ e, u = t.finish i e ∧ Harmless e ∧ (since ≤ t.log.length → Stamped t e)) ∨
    (∃ key, t.count < heapBytes ∧ u = (t.push key).finish i (.get key t.nextSemid) ∧
      (key ≠ 0 → ∀ k < t.count, (t.sems k).state.data.removed = false → (t.sems k).key ≠ key)) ∨
    (∃ k call, k < t.count ∧ (t.sems k).state.data.removed = false ∧
      u = t.enter i k call since) := by
  have hfail (semid : Int) (call : SemCall) (hu : t.finish i (.op semid call (-1) since) = u) :
      ∃ e, u = t.finish i e ∧ Harmless e ∧ (since ≤ t.log.length → Stamped t e) :=
    ⟨_, hu.symm, fun _ _ _ he => by simp at he, fun hs _ _ _ _ he => by
      obtain ⟨-,-,-,rfl⟩ := Finished.op.inj he
      exact hs⟩
  have hget (key result : Int) (hu : t.finish i (.get key result) = u) :
      ∃ e, u = t.finish i e ∧ Harmless e ∧ (since ≤ t.log.length → Stamped t e) :=
    ⟨_, hu.symm, fun _ _ _ he => by simp at he, fun _ _ _ _ _ he => by simp at he⟩
  have hcreate (key : Int) (hc : t.create i key = some u) : t.count < heapBytes ∧
      u = (t.push key).finish i (.get key t.nextSemid) := by
    rw [Table.create] at hc
    split at hc
    · exact ⟨‹_›, (Option.some.inj hc).symm⟩
    · cases hc
  cases request with
  | semget key nsems =>
    rw [Table.lookup] at h
    split at h
    · exact Or.inl (hget _ _ (Option.some.inj h))
    split at h
    · rename_i hkey
      obtain ⟨hb,hu⟩ := hcreate key h
      exact Or.inr (Or.inl ⟨key, hb, hu, fun h0 => absurd hkey h0⟩)
    split at h
    · exact Or.inl (hget _ _ (Option.some.inj h))
    · rename_i hscan
      obtain ⟨hb,hu⟩ := hcreate key h
      refine Or.inr (Or.inl ⟨key, hb, hu, fun _ k hk hr hkey => ?_⟩)
      have hp := scan_none hscan hk
      simp [hr, hkey] at hp
  | semop semid nsops bufferOk semNum op =>
    rw [Table.lookup] at h
    split at h
    · exact Or.inl (hfail _ _ (Option.some.inj h))
    split at h
    · exact Or.inl (hfail _ _ (Option.some.inj h))
    · rename_i k hscan
      split at h
      · exact Or.inl (hfail _ _ (Option.some.inj h))
      rename_i hr
      split at h
      · exact Or.inl (hfail _ _ (Option.some.inj h))
      · exact Or.inr (Or.inr ⟨k, _, (scan_some hscan).1, Bool.not_eq_true _ ▸ hr,
          (Option.some.inj h).symm⟩)
  | semctl semid semnum cmd =>
    rw [Table.lookup] at h
    split at h
    · exact Or.inl (hfail _ _ (Option.some.inj h))
    split at h
    · exact Or.inl (hfail _ _ (Option.some.inj h))
    · rename_i k hscan
      split at h
      · exact Or.inl (hfail _ _ (Option.some.inj h))
      rename_i hr
      exact Or.inr (Or.inr ⟨k, _, (scan_some hscan).1, Bool.not_eq_true _ ▸ hr,
        (Option.some.inj h).symm⟩)

theorem section_cases (h : t.section i k since = some u) :
    (∃ state, state.data = (t.sems k).state.data ∧ u = t.setState k state) ∨
    (∃ call w result state, (t.sems k).state.status i = .inside call ∧
      semaphoreBody (t.sems k).state.data call = .leave state.data w result ∧
      u = (t.setState k state).finish i (.op (t.sems k).id call result since)) := by
  rw [Table.section] at h
  split at h
  · rename_i call hin
    simp only [Conditions.step, hin] at h
    cases hb : semaphoreBody (t.sems k).state.data call with
    | wait =>
      rw [hb] at h
      exact Or.inl ⟨(t.sems k).state.put i (.captured call (t.sems k).state.epoch), rfl,
        (Option.some.inj h).symm⟩
    | leave data w result =>
      rw [hb] at h
      exact Or.inr ⟨call, w, result, _, hin, hb, (Option.some.inj h).symm⟩
  · cases h

theorem semaphoreOp_removed {sem data : KernelSemaphore} {op : Int16} {w : Wake} {result : Int}
    (h : semaphoreOp sem op = .leave data w result) :
    data.removed = sem.removed ∧ (result = 0 → sem.removed = false) := by
  rw [semaphoreOp] at h
  by_cases hr : sem.removed = true
  · rw [if_pos hr] at h
    obtain ⟨rfl,-,rfl⟩ := Outcome.leave.inj h
    exact ⟨rfl, fun h0 => absurd h0 (by decide)⟩
  · refine ⟨?_, fun _ => Bool.not_eq_true _ ▸ hr⟩
    rw [if_neg hr] at h
    split at h
    · obtain ⟨rfl,-⟩ := Outcome.leave.inj h
      rfl
    split at h
    · split at h
      · cases h
      · obtain ⟨rfl,-⟩ := Outcome.leave.inj h
        rfl
    · dsimp only at h
      split at h
      · cases h
      · obtain ⟨rfl,-⟩ := Outcome.leave.inj h
        rfl

theorem semaphoreBody_removed {sem data : KernelSemaphore} {call : SemCall} {w : Wake} {result : Int}
    (h : semaphoreBody sem call = .leave data w result) :
    (sem.removed = true → data.removed = true) ∧ (call = .rmid → data.removed = true) := by
  cases call with
  | rmid =>
    obtain ⟨rfl,-⟩ := Outcome.leave.inj h
    exact ⟨fun _ => rfl, fun _ => rfl⟩
  | semop op =>
    have hkept := (semaphoreOp_removed h).1
    exact ⟨fun hr => hkept.trans hr, fun hc => by cases hc⟩

end Steps

/-! What holds in every run. -/

structure Inv (t : Table) : Prop where
  ids : ∀ k < t.count, (t.sems k).id = (k : Int)+1
  next : t.nextSemid = (t.count : Int)+1
  bound : t.count ≤ heapBytes
  called : ∀ i request since, t.threads i = .called request since → since ≤ t.log.length
  /-- A semaphore whose removal has returned is removed. -/
  removal : ∀ id, ∀ e ∈ t.log, Removes id e →
    ∃ k < t.count, id = (k : Int)+1 ∧ (t.sems k).state.data.removed = true
  /-- A thread past the lookup began before any removal returned. -/
  fresh : ∀ i k since, t.threads i = .inSem k since → k < t.count ∧ since ≤ t.log.length ∧
    ∀ e ∈ t.log.take since, ¬ Removes ((k : Int)+1) e
  stamped : ∀ e ∈ t.log, Stamped t e
  later : ∀ id op since, .op id (.semop op) 0 since ∈ t.log →
    ∀ e ∈ t.log.take since, ¬ Removes id e
  unique : ∀ k l, k < t.count → l < t.count → (t.sems k).state.data.removed = false →
    (t.sems l).state.data.removed = false → (t.sems k).key = (t.sems l).key →
    (t.sems k).key ≠ 0 → k = l

section Keep
variable {t u : Table} {i k since : Nat} {e : Finished}

theorem inv_boot : Inv Table.boot where
  ids k hk := absurd hk (Nat.not_lt_zero k)
  next := rfl
  bound := Nat.zero_le _
  called _ _ _ h := by cases h
  removal _ e he := by cases he
  fresh _ _ _ h := by cases h
  stamped e he := by cases he
  later _ _ _ h := by cases h
  unique k _ hk := absurd hk (Nat.not_lt_zero k)

theorem Inv.finish (h : Inv t) (hs : Stamped t e)
    (hremoval : ∀ id, Removes id e →
      ∃ k < t.count, id = (k : Int)+1 ∧ (t.sems k).state.data.removed = true)
    (hlater : ∀ id op since, e = .op id (.semop op) 0 since →
      ∀ e' ∈ t.log.take since, ¬ Removes id e') : Inv (t.finish i e) := by
  have htake {since : Nat} (hle : since ≤ t.log.length) :
      (t.log ++ [e]).take since = t.log.take since := List.take_append_of_le_length hle
  have hlen : t.log.length ≤ (t.log ++ [e]).length := by simp
  have hthread {j : Nat} {x : Thread} (hx : x ≠ .outside) (hj : (t.finish i e).threads j = x) :
      t.threads j = x := by
    by_cases hji : j = i
    · subst hji
      exact absurd (hj.symm.trans (Function.update_self ..)) hx
    · exact (Function.update_of_ne hji ..).symm.trans hj
  refine ⟨h.ids, h.next, h.bound, fun j request since hj => ?_, fun id e' he' hr => ?_,
    fun j k since hj => ?_, fun e' he' semid call result since heq => ?_,
    fun id op since he' => ?_, h.unique⟩
  · exact Nat.le_trans (h.called j request since (hthread (by simp) hj)) hlen
  · obtain he' | he' := List.mem_append.mp he'
    · exact h.removal id e' he' hr
    · exact hremoval id (List.mem_singleton.mp he' ▸ hr)
  · obtain ⟨hk,hle,hf⟩ := h.fresh j k since (hthread (by simp) hj)
    refine ⟨hk, Nat.le_trans hle hlen, ?_⟩
    change ∀ e' ∈ (t.log ++ [e]).take since, _
    rw [htake hle]
    exact hf
  · refine Nat.le_trans ?_ hlen
    obtain he' | he' := List.mem_append.mp he'
    · exact h.stamped e' he' semid call result since heq
    · exact hs semid call result since (List.mem_singleton.mp he' ▸ heq)
  · change ∀ e' ∈ (t.log ++ [e]).take since, _
    obtain he' | he' := List.mem_append.mp he'
    · rw [htake (h.stamped _ he' _ _ _ _ rfl)]
      exact h.later id op since he'
    · have heq := (List.mem_singleton.mp he').symm
      rw [htake (hs _ _ _ _ heq)]
      exact hlater id op since heq

theorem harmless_removes (he : Harmless e) (id : Int) : ¬ Removes id e := by
  cases e with
  | get key result => exact False.elim
  | op semid call result since =>
    rintro ⟨-,-,rfl⟩
    exact he semid call since rfl

theorem Inv.finish_harmless (h : Inv t) (hs : Stamped t e) (he : Harmless e) :
    Inv (t.finish i e) :=
  h.finish hs (fun id hr => absurd hr (harmless_removes he id))
    fun id op since heq => absurd heq (he id (.semop op) since)

theorem Inv.setState {state : SemState} (h : Inv t)
    (hmono : (t.sems k).state.data.removed = true → state.data.removed = true) :
    Inv (t.setState k state) := by
  have hsame (j : Nat) : ((t.setState k state).sems j).id = (t.sems j).id ∧
      ((t.setState k state).sems j).key = (t.sems j).key ∧
      ((t.sems j).state.data.removed = true →
        ((t.setState k state).sems j).state.data.removed = true) := by
    by_cases hj : j = k
    · subst hj
      simp only [Table.setState, Function.update_self]
      exact ⟨trivial, trivial, hmono⟩
    · simp only [Table.setState, Function.update_of_ne hj]
      exact ⟨trivial, trivial, fun hr => hr⟩
  have hback (j : Nat) (hr : ((t.setState k state).sems j).state.data.removed = false) :
      (t.sems j).state.data.removed = false := by
    by_contra hn
    rw [(hsame j).2.2 (Bool.not_eq_false _ ▸ hn)] at hr
    cases hr
  refine ⟨fun j hj => (hsame j).1.trans (h.ids j hj), h.next, h.bound, h.called,
    fun id e he hr => ?_, h.fresh, h.stamped, h.later, fun j l hj hl hrj hrl hkey h0 => ?_⟩
  · obtain ⟨j,hj,hid,hrem⟩ := h.removal id e he hr
    exact ⟨j, hj, hid, (hsame j).2.2 hrem⟩
  · rw [(hsame j).2.1] at hkey h0
    rw [(hsame l).2.1] at hkey
    exact h.unique j l hj hl (hback j hrj) (hback l hrl) hkey h0

theorem Inv.goto {x : Thread} (h : Inv t)
    (hcalled : ∀ request since, x = .called request since → since ≤ t.log.length)
    (hin : ∀ k since, x = .inSem k since → k < t.count ∧ since ≤ t.log.length ∧
      ∀ e ∈ t.log.take since, ¬ Removes ((k : Int)+1) e) :
    Inv { t with threads := Function.update t.threads i x } := by
  refine ⟨h.ids, h.next, h.bound, fun j request since hj => ?_, h.removal, fun j k since hj => ?_,
    h.stamped, h.later, h.unique⟩
  · by_cases hji : j = i
    · subst hji
      exact hcalled request since ((Function.update_self ..).symm.trans hj)
    · exact h.called j request since ((Function.update_of_ne hji ..).symm.trans hj)
  · by_cases hji : j = i
    · subst hji
      exact hin k since ((Function.update_self ..).symm.trans hj)
    · exact h.fresh j k since ((Function.update_of_ne hji ..).symm.trans hj)

theorem Inv.push {key : Int} (h : Inv t) (hb : t.count < heapBytes)
    (hkey : key ≠ 0 → ∀ k < t.count, (t.sems k).state.data.removed = false → (t.sems k).key ≠ key) :
    Inv (t.push key) := by
  have hold (j : Nat) (hj : j < t.count) : (t.push key).sems j = t.sems j :=
    Function.update_of_ne (Nat.ne_of_lt hj) ..
  have hnew : (t.push key).sems t.count = ⟨t.nextSemid, key, start newSemaphore⟩ :=
    Function.update_self ..
  have hnext : (t.nextSemid+1).bmod 4294967296 = t.nextSemid+1 := by
    have hn := h.next
    have hb : t.count < 6291456 := hb
    rw [Int.bmod_def]
    split <;> omega
  refine ⟨fun j hj => ?_, ?_, hb, h.called, fun id e he hr => ?_, fun j k since hj => ?_, h.stamped,
    h.later, fun j l hj hl hrj hrl hk h0 => ?_⟩
  · obtain hj | rfl := Nat.lt_succ_iff_lt_or_eq.mp hj
    · rw [hold j hj]
      exact h.ids j hj
    · rw [hnew]
      exact h.next
  · change (t.nextSemid+1).bmod 4294967296 = ((t.count+1 : Nat) : Int)+1
    rw [hnext, h.next]
    omega
  · obtain ⟨j,hj,hid,hrem⟩ := h.removal id e he hr
    exact ⟨j, Nat.lt_succ_of_lt hj, hid, by rw [hold j hj]; exact hrem⟩
  · obtain ⟨hk,hle,hf⟩ := h.fresh j k since hj
    exact ⟨Nat.lt_succ_of_lt hk, hle, hf⟩
  · obtain hj | rfl := Nat.lt_succ_iff_lt_or_eq.mp hj
    · rw [hold j hj] at hrj hk h0
      obtain hl | rfl := Nat.lt_succ_iff_lt_or_eq.mp hl
      · rw [hold l hl] at hrl hk
        exact h.unique j l hj hl hrj hrl hk h0
      · rw [hnew] at hk
        exact absurd hk (hkey (fun hz => h0 (hk.trans hz)) j hj hrj)
    · rw [hnew] at hk h0
      obtain hl | rfl := Nat.lt_succ_iff_lt_or_eq.mp hl
      · rw [hold l hl] at hrl hk
        exact absurd hk.symm (hkey h0 l hl hrl)
      · rfl

theorem Inv.present (h : Inv t) (hr : (t.sems k).state.data.removed = false) :
    ∀ e ∈ t.log, ¬ Removes ((k : Int)+1) e := by
  intro e he hrem
  obtain ⟨j,-,hid,hj⟩ := h.removal _ e he hrem
  obtain rfl : k = j := by omega
  rw [hr] at hj
  cases hj

theorem Inv.lookup {request : Request} (h : Inv t) (hi : t.threads i = .called request since)
    (hs : t.lookup i since request = some u) : Inv u := by
  have hle := h.called i request since hi
  obtain ⟨e,rfl,he,hst⟩ | ⟨key,hb,rfl,hkey⟩ | ⟨k,call,hk,hr,rfl⟩ := lookup_cases hs
  · exact h.finish_harmless (hst hle) he
  · exact (h.push hb hkey).finish_harmless (fun _ _ _ _ he => by cases he) fun _ _ _ he => by cases he
  · have hstate : Inv (t.setState k ((t.sems k).state.put i (.inside call))) := h.setState fun hr => hr
    refine hstate.goto (fun _ _ hx => by cases hx) fun k' since' hx => ?_
    obtain ⟨rfl,rfl⟩ := Thread.inSem.inj hx
    exact ⟨hk, hle, fun e he => h.present hr e (List.mem_of_mem_take he)⟩

theorem Inv.section (h : Inv t) (hi : t.threads i = .inSem k since)
    (hs : t.section i k since = some u) : Inv u := by
  obtain ⟨hk,hle,hfresh⟩ := h.fresh i k since hi
  obtain ⟨state,hd,rfl⟩ | ⟨call,w,result,state,-,hb,rfl⟩ := section_cases hs
  · exact h.setState fun hr => by rw [hd]; exact hr
  · obtain ⟨hkept,hset⟩ := semaphoreBody_removed hb
    have hstate : Inv (t.setState k state) := h.setState hkept
    refine hstate.finish (fun _ _ _ _ he => ?_) (fun id hr => ?_) fun id op since' he => ?_
    · obtain ⟨-,-,-,rfl⟩ := Finished.op.inj he
      exact hle
    · obtain ⟨rfl,hc,-⟩ := hr
      refine ⟨k, hk, h.ids k hk, ?_⟩
      simp only [Table.setState, Function.update_self]
      exact hset hc
    · obtain ⟨rfl,-,-,rfl⟩ := Finished.op.inj he
      rw [h.ids k hk]
      exact hfresh

theorem Inv.step {a : TableAction} (h : Inv t) (hs : tableStep t a = some u) : Inv u := by
  have hcond {j : Nat} {b : Action Nat SemCall} (hb : ∀ call, b ≠ .critical call)
      (hs : (Conditions.step semaphoreBody (t.sems j).state b).map (t.setState j) = some u) :
      Inv u := by
    obtain ⟨state,hstate,rfl⟩ := Option.map_eq_some_iff.mp hs
    have hd : state.data = (t.sems j).state.data := by
      obtain ⟨i,call,-,rfl⟩ | ⟨i,call,ha,-⟩ | ⟨i,call,data,w,result,ha,-⟩ | ⟨i,call,e,-,rfl⟩ |
        ⟨i,call,-,rfl⟩ := step_cases hstate
      · rfl
      · exact absurd ha (hb i)
      · exact absurd ha (hb i)
      · rfl
      · rfl
    exact h.setState fun hr => by rw [hd]; exact hr
  cases a with
  | start i request =>
    rw [tableStep] at hs
    split at hs
    · cases hs
      refine h.goto (fun _ _ hx => ?_) fun _ _ hx => by cases hx
      obtain ⟨-,rfl⟩ := Thread.called.inj hx
      exact Nat.le_refl _
    · cases hs
  | lookup i =>
    rw [tableStep] at hs
    split at hs
    · exact h.lookup ‹_› hs
    · cases hs
  | critical i =>
    rw [tableStep] at hs
    split at hs
    · exact h.section ‹_› hs
    · cases hs
  | retry i =>
    rw [tableStep] at hs
    split at hs
    · exact hcond (by simp) hs
    · cases hs
  | postSwitch i =>
    rw [tableStep] at hs
    split at hs
    · exact hcond (by simp) hs
    · cases hs

end Keep

theorem inv_invariant : tableMachine.system.Invariant Inv where
  init := by
    rintro t rfl
    exact inv_boot
  step := by
    rintro t u h ⟨a,-,hs⟩
    exact h.step hs

/-- In every run, a `semop` that begins after a removal returned fails, and no two semaphores
in use have one key. -/
theorem removal_seen {t : Table} (h : tableMachine.system.Reachable t) :
    (∀ id op since, .op id (.semop op) 0 since ∈ t.log → ∀ e ∈ t.log.take since, ¬ Removes id e) ∧
    (∀ k l, k < t.count → l < t.count → (t.sems k).state.data.removed = false →
      (t.sems l).state.data.removed = false → (t.sems k).key = (t.sems l).key →
      (t.sems k).key ≠ 0 → k = l) := by
  have hi := inv_invariant.reachable h
  exact ⟨hi.later, hi.unique⟩

/-! With removals that find the semaphore present. -/

section Once
variable {t u : Table}

theorem step_log {a : TableAction} (hs : tableStep t a = some u) :
    u.log = t.log ∨ (∃ e, u.log = t.log ++ [e] ∧ Harmless e) ∨
      ∃ i k since call result, a = .critical i ∧ t.threads i = .inSem k since ∧
        (t.sems k).state.status i = .inside call ∧
        u.log = t.log ++ [.op (t.sems k).id call result since] := by
  cases a with
  | start i request =>
    rw [tableStep] at hs
    split at hs
    · cases hs
      exact Or.inl rfl
    · cases hs
  | lookup i =>
    rw [tableStep] at hs
    split at hs
    · obtain ⟨e,rfl,he,-⟩ | ⟨key,-,rfl,-⟩ | ⟨k,call,-,-,rfl⟩ := lookup_cases hs
      · exact Or.inr (Or.inl ⟨e, rfl, he⟩)
      · exact Or.inr (Or.inl ⟨_, rfl, fun _ _ _ he => by cases he⟩)
      · exact Or.inl rfl
    · cases hs
  | critical i =>
    rw [tableStep] at hs
    split at hs
    · rename_i k since hi
      obtain ⟨state,-,rfl⟩ | ⟨call,w,result,state,hin,-,rfl⟩ := section_cases hs
      · exact Or.inl rfl
      · exact Or.inr (Or.inr ⟨i, k, since, call, result, rfl, hi, hin, rfl⟩)
    · cases hs
  | retry i | postSwitch i =>
    rw [tableStep] at hs
    split at hs
    · obtain ⟨state,-,rfl⟩ := Option.map_eq_some_iff.mp hs
      exact Or.inl rfl
    · cases hs

def AtMostOnce (t : Table) : Prop := ∀ id, t.log.countP (fun e => Removes id e) ≤ 1

theorem AtMostOnce.step {a : TableAction} (h : AtMostOnce t) (hi : Inv t) (hc : FindsPresent t a)
    (hs : tableStep t a = some u) : AtMostOnce u := by
  intro id
  have hid := h id
  obtain hl | ⟨e,hl,he⟩ | ⟨i,k,since,call,result,rfl,hin,hst,hl⟩ := step_log hs
  · rwa [hl]
  · rw [hl, List.countP_append, List.countP_singleton, if_neg (by simpa using harmless_removes he id)]
    exact hid
  · rw [hl, List.countP_append, List.countP_singleton]
    split
    · rename_i hr
      obtain ⟨rfl,rfl,-⟩ : Removes id (.op (t.sems k).id call result since) := by simpa using hr
      have hpresent := hi.present (hc k since hin hst)
      have hzero : t.log.countP (fun e => Removes (t.sems k).id e) = 0 := by
        rw [List.countP_eq_zero, hi.ids k (hi.fresh i k since hin).1]
        intro e he
        simpa using hpresent e he
      omega
    · exact hid

/-- In a run in which each removal finds its semaphore present under the lock, removal takes
effect once: one `semctl` for each id returns 0, a `semop` that begins after that fails, and
no two semaphores in use have one nonzero key. -/
theorem removed_once (h : (tableMachine.under FindsPresent).Reachable t) : RemovedOnce t := by
  have hinv : (tableMachine.under FindsPresent).Invariant fun t => Inv t ∧ AtMostOnce t := by
    refine ⟨?_, ?_⟩
    · rintro t rfl
      exact ⟨inv_boot, fun _ => Nat.zero_le _⟩
    · rintro t u ⟨hi,ho⟩ ⟨a,hc,hs⟩
      exact ⟨hi.step hs, ho.step hi hc hs⟩
  obtain ⟨hi,ho⟩ := hinv.reachable h
  exact ⟨ho, hi.later, hi.unique⟩

end Once

instance (t : Table) : ∀ a, Decidable (FindsPresent t a)
  | .critical i =>
    match hi : t.threads i with
    | .inSem k _ => decidable_of_iff ((t.sems k).state.status i = .inside .rmid →
        (t.sems k).state.data.removed = false) (by simp [FindsPresent, hi])
    | .outside => isTrue fun _ _ h => by rw [hi] at h; cases h
    | .called _ _ => isTrue fun _ _ h => by rw [hi] at h; cases h
  | .start _ _ => isTrue trivial
  | .lookup _ => isTrue trivial
  | .retry _ => isTrue trivial
  | .postSwitch _ => isTrue trivial

def removalRun : List TableAction :=
  [.start 0 (.semget 7 1), .lookup 0, .start 0 (.semctl 1 0 0), .lookup 0, .critical 0]

theorem removed_once_small : RemovedOnce (tableMachine.run .boot removalRun) :=
  removed_once (Machine.reachable_run (.init rfl) (by decide))

/-- Two threads look the semaphore up before either removes it. -/
def doubleRun : List TableAction :=
  [.start 0 (.semget 7 1), .lookup 0, .start 0 (.semctl 1 0 0), .start 1 (.semctl 1 0 0),
    .lookup 0, .lookup 1, .critical 0, .critical 1]

/-- Both removals return 0. -/
theorem removed_twice : ∃ t, tableMachine.system.Reachable t ∧ ¬ RemovedOnce t := by
  have hr : tableMachine.system.Reachable (tableMachine.run .boot doubleRun) :=
    Machine.reachable_run (.init rfl) Machine.allowed_true
  refine ⟨_, hr, fun h => ?_⟩
  exact absurd (h.once 1) (by decide)

end NetKernel.SemaphoreTables
