import NetKernel.Lib.Places
import NetKernel.Lib.Runs

/-! `SpinLock`, one access at a time: `tryLock`, `lock` and `unlock` by any number of threads
on any number of locks, the interrupt flag as each thread sees it, and the counters that
`unlock` keeps. -/
namespace NetKernel.SpinLocks
open Function Runs Places

structure SpinLock where
  taken : Bool
  start : UInt64
  countIt : Bool
  wasDisabled : Bool

def SpinLock.new : SpinLock := ⟨false, 0, false, false⟩

/-- `max_critical_section_cycles`, `total_critical_section_cycles`, `critical_section_count`. -/
structure Stats where
  maxCycles : UInt64
  totalCycles : UInt64
  sectionCount : UInt64

/-- Where a thread stands: before the access named. `again` tells `lock`, which tries until it
has the lock, from `tryLock`; what was read is kept in the order it was read in. -/
inductive Pc (L : Type*) where
  | idle
  | disable (l : L) (again : Bool)
  | exchange (l : L) (again was : Bool)
  | keepWas (l : L) (was : Bool)
  | keepStart (l : L)
  | giveUp (l : L) (again was : Bool)
  | readCountIt (l : L)
  | setCountIt (l : L) (c : Bool)
  | readStart (l : L) (c : Bool)
  | readEnd (l : L) (c : Bool) (s : UInt64)
  | readWas (l : L) (c : Bool) (s finish : UInt64)
  | release (l : L) (c : Bool) (s finish : UInt64) (was : Bool)
  | restore (c : Bool) (s finish : UInt64) (was : Bool)
  | addTotal (elapsed : UInt64)
  | addCount (elapsed : UInt64)
  | readMax (elapsed : UInt64)
  | swapMax (elapsed old : UInt64)
deriving DecidableEq, Repr

/-- A lock a thread has, with what `disable` and `rdtsc` gave it when it took the lock. -/
structure Holding (L : Type*) where
  lock : L
  was : Bool
  start : UInt64
deriving DecidableEq, Repr

/-- `held` has the last lock taken first; `outside` is the interrupt flag as the thread last
set it while it had no lock. -/
structure Thread (L : Type*) where
  pc : Pc L
  interrupts : Bool
  held : List (Holding L)
  outside : Bool

def Thread.locks {L : Type*} (th : Thread L) : List L := th.held.map Holding.lock

/-- A critical section that has come to its end. -/
structure Section (L : Type*) where
  lock : L
  start : UInt64
  finish : UInt64
deriving DecidableEq, Repr

/-- `ended` has the critical sections, the last first. -/
structure State (τ L : Type*) where
  threads : τ → Thread L
  locks : L → SpinLock
  stats : Stats
  ended : List (Section L)

variable {τ L : Type*} [DecidableEq τ]

def State.put (s : State τ L) (t : τ) (th : Thread L) : State τ L :=
  { s with threads := update s.threads t th }

def State.goto (s : State τ L) (t : τ) (pc : Pc L) : State τ L :=
  s.put t { s.threads t with pc := pc }

variable {s : State τ L} {t u : τ} {th : Thread L}

@[simp] theorem threads_put_self : (s.put t th).threads t = th := update_self ..

theorem threads_put_of_ne (hu : u ≠ t) : (s.put t th).threads u = s.threads u := update_of_ne hu ..

variable [DecidableEq L]

def State.store (s : State τ L) (l : L) (lock : SpinLock) : State τ L :=
  { s with locks := update s.locks l lock }

omit [DecidableEq τ] in
@[simp] theorem threads_store {l : L} {lock : SpinLock} : (s.store l lock).threads = s.threads := rfl

/-- `held` with the clock reading of the last lock taken. -/
def stamp (now : UInt64) : List (Holding L) → List (Holding L)
  | [] => []
  | h :: rest => { h with start := now } :: rest

/-- The next access of the call a thread is in; `now` is what `rdtsc` would give. -/
def State.advance (s : State τ L) (t : τ) (now : UInt64) : State τ L :=
  let th := s.threads t
  match th.pc with
  | .idle => s
  | .disable l again =>
    s.put t { th with pc := .exchange l again (!th.interrupts), interrupts := false }
  | .exchange l again was =>
    if (s.locks l).taken then s.goto t (.giveUp l again was)
    else (s.store l { s.locks l with taken := true }).put t
      { th with pc := .keepWas l was, held := ⟨l, was, 0⟩ :: th.held }
  | .keepWas l was => (s.store l { s.locks l with wasDisabled := was }).goto t (.keepStart l)
  | .keepStart l =>
    (s.store l { s.locks l with start := now }).put t
      { th with pc := .idle, held := stamp now th.held }
  | .giveUp l again was =>
    s.put t { th with
      pc := if again then .disable l true else .idle
      interrupts := if was then th.interrupts else true }
  | .readCountIt l => s.goto t (.setCountIt l (s.locks l).countIt)
  | .setCountIt l c => (s.store l { s.locks l with countIt := true }).goto t (.readStart l c)
  | .readStart l c => s.goto t (.readEnd l c (s.locks l).start)
  | .readEnd l c start => s.goto t (.readWas l c start now)
  | .readWas l c start finish => s.goto t (.release l c start finish (s.locks l).wasDisabled)
  | .release l c start finish was =>
    let ended := (th.held.filter (·.lock = l)).map fun h => ⟨l, h.start, finish⟩
    { (s.store l { s.locks l with taken := false }).put t
        { th with pc := .restore c start finish was, held := th.held.filter (·.lock ≠ l) } with
      ended := ended ++ s.ended }
  | .restore c start finish was =>
    s.put t { th with
      pc := if c then .addTotal (finish-start) else .idle
      interrupts := if was then th.interrupts else true }
  | .addTotal elapsed =>
    { s.goto t (.addCount elapsed) with
      stats := { s.stats with totalCycles := s.stats.totalCycles+elapsed } }
  | .addCount elapsed =>
    { s.goto t (.readMax elapsed) with
      stats := { s.stats with sectionCount := s.stats.sectionCount+1 } }
  | .readMax elapsed =>
    if elapsed ≤ s.stats.maxCycles then s.goto t .idle
    else s.goto t (.swapMax elapsed s.stats.maxCycles)
  | .swapMax elapsed old =>
    if s.stats.maxCycles = old then
      { s.goto t .idle with stats := { s.stats with maxCycles := elapsed } }
    else s.goto t (.readMax elapsed)

/-- `flag` is a `cli` or `sti` of the thread's own outside these calls. -/
inductive Action (τ L : Type*) where
  | tryLock (t : τ) (l : L)
  | lock (t : τ) (l : L)
  | unlock (t : τ) (l : L)
  | flag (t : τ) (enabled : Bool)
  | advance (t : τ) (now : UInt64)

/-- A thread starts a call when it is in none, and unlocks what it has. -/
def step (s : State τ L) : Action τ L → Option (State τ L)
  | .tryLock t l =>
    if (s.threads t).pc = .idle then some (s.goto t (.disable l false)) else none
  | .lock t l => if (s.threads t).pc = .idle then some (s.goto t (.disable l true)) else none
  | .unlock t l =>
    if (s.threads t).pc = .idle ∧ l ∈ (s.threads t).locks then
      some (s.goto t (.readCountIt l))
    else none
  | .flag t enabled =>
    if (s.threads t).pc = .idle then
      some (s.put t { s.threads t with
        interrupts := enabled
        outside := if (s.threads t).held = [] then enabled else (s.threads t).outside })
    else none
  | .advance t now =>
    if (s.threads t).pc = .idle then none else some (s.advance t now)

/-- Threads without locks, in any interrupt state, and new locks. -/
def machine (τ L : Type*) [DecidableEq τ] [DecidableEq L] :
    Machine (State τ L) (Action τ L) where
  Init s := (∀ t, ∃ enabled, s.threads t = ⟨.idle, enabled, [], enabled⟩) ∧ (∀ l, s.locks l = .new) ∧
    s.stats = ⟨0, 0, 0⟩ ∧ s.ended = []
  step := step

def twoThreads : State Bool Bool := ⟨fun _ => ⟨.idle, true, [], true⟩, fun _ => .new, ⟨0, 0, 0⟩, []⟩

theorem twoThreads_init : (machine Bool Bool).Init twoThreads :=
  ⟨fun _ => ⟨true, rfl⟩, fun _ => rfl, rfl, rfl⟩

/-- One thread takes both locks while the other tries for the first. -/
def nestedActions : List (Action Bool Bool) :=
  [.lock false false] ++ List.replicate 4 (.advance false 10) ++ [.lock true false] ++
    List.replicate 3 (.advance true 11) ++ [.lock false true] ++
    List.replicate 4 (.advance false 12)

/-- It gives both up, and the other has the first from 30 to 37. -/
def contendedActions : List (Action Bool Bool) :=
  nestedActions ++ [.unlock false true] ++ List.replicate 7 (.advance false 15) ++
    [.unlock false false] ++ List.replicate 7 (.advance false 20) ++
    List.replicate 4 (.advance true 30) ++ [.unlock true false] ++
    List.replicate 11 (.advance true 37)

end NetKernel.SpinLocks
