import NetKernel.Sched.Condition

/-! Calls of several sections over a `Condition`: a section may change the data before it
waits, and a call may go on after it gave the lock up. -/
namespace NetKernel.Phases
open Runs Conditions

/-- What one section does. `call` is the rest of the call: after `wait` it begins with
taking the lock, after `goOn` it is past the `unlock`. -/
inductive Section (σ ρ : Type*) where
  | wait (data : σ) (call : ρ)
  | goOn (call : ρ)
  | leave (data : σ) (wakes : Wake)
  | assertFails
deriving DecidableEq, Repr

/-- The calls a thread can make, and the sections of these and of what they go on with. -/
structure Object (σ ρ : Type*) where
  starts : ρ → Bool
  body : σ → ρ → Section σ ρ

variable {τ σ ρ : Type*} [DecidableEq τ]

def step (o : Object σ ρ) (s : State τ σ ρ) : Action τ ρ → Option (State τ σ ρ)
  | .call i call =>
    match s.status i with
    | .outside => if o.starts call then some (s.put i (.inside call)) else none
    | _ => none
  | .critical i =>
    match s.status i with
    | .inside call =>
      match o.body s.data call with
      | .wait data next => some { s.put i (.captured next s.epoch) with data := data }
      | .goOn next => some (s.put i (.inside next))
      | .leave data wakes => some ((s.notify wakes).leave i call data 0)
      | .assertFails => none
    | _ => none
  | .retry i =>
    match s.status i with
    | .captured call _ => some (s.put i (.inside call))
    | _ => none
  | .postSwitch i =>
    match s.status i with
    | .captured call condEpoch =>
      if s.epoch = condEpoch then
        some { s.put i (.parked call) with waiting := s.waiting ++ [i] }
      else some (s.put i (.inside call))
    | _ => none

def machine (τ : Type*) [DecidableEq τ] (o : Object σ ρ) (data : σ) :
    Machine (State τ σ ρ) (Action τ ρ) where
  Init s := s = start data
  step := step o

variable {o : Object σ ρ} {s t : State τ σ ρ} {a : Action τ ρ}

theorem step_cases (h : step o s a = some t) :
    (∃ i call, a = .call i call ∧ o.starts call ∧ s.status i = .outside ∧
      t = s.put i (.inside call)) ∨
    (∃ i call data next, a = .critical i ∧ s.status i = .inside call ∧
      o.body s.data call = .wait data next ∧
      t = { s.put i (.captured next s.epoch) with data := data }) ∨
    (∃ i call next, s.status i = .inside call ∧ o.body s.data call = .goOn next ∧
      t = s.put i (.inside next)) ∨
    (∃ i call data w, a = .critical i ∧ s.status i = .inside call ∧
      o.body s.data call = .leave data w ∧ t = (s.notify w).leave i call data 0) ∨
    (∃ i call e, s.status i = .captured call e ∧ t = s.put i (.inside call)) ∨
    (∃ i call, s.status i = .captured call s.epoch ∧
      t = { s.put i (.parked call) with waiting := s.waiting ++ [i] }) := by
  cases a with
  | call i call =>
    simp only [step] at h
    split at h
    · split at h
      · exact Or.inl ⟨i, call, rfl, ‹_›, ‹_›, (Option.some.inj h).symm⟩
      · cases h
    · cases h
  | critical i =>
    simp only [step] at h
    split at h
    · rename_i call hi
      split at h
      · exact Or.inr (Or.inl ⟨i, call, _, _, rfl, hi, ‹_›, (Option.some.inj h).symm⟩)
      · exact Or.inr (Or.inr (Or.inl ⟨i, call, _, hi, ‹_›, (Option.some.inj h).symm⟩))
      · exact Or.inr (Or.inr (Or.inr (Or.inl
          ⟨i, call, _, _, rfl, hi, ‹_›, (Option.some.inj h).symm⟩)))
      · cases h
    · cases h
  | retry i =>
    simp only [step] at h
    split at h
    · exact Or.inr (Or.inr (Or.inr (Or.inr (Or.inl ⟨i, _, _, ‹_›, (Option.some.inj h).symm⟩))))
    · cases h
  | postSwitch i =>
    simp only [step] at h
    split at h
    · rename_i call e hi
      split at h
      · rename_i he
        subst he
        exact Or.inr (Or.inr (Or.inr (Or.inr (Or.inr ⟨i, call, hi, (Option.some.inj h).symm⟩))))
      · exact Or.inr (Or.inr (Or.inr (Or.inr (Or.inl
          ⟨i, call, e, hi, (Option.some.inj h).symm⟩))))
    · cases h

/-! The calls without the condition: which call each thread is in, and what came back. -/

structure View (τ σ ρ : Type*) where
  calls : τ → Option ρ
  data : σ
  epoch : Nat
  results : List (τ × ρ × Int)

def inCall : Status ρ → Option ρ
  | .outside => none
  | .inside call | .captured call _ | .parked call => some call

def view (s : State τ σ ρ) : View τ σ ρ :=
  ⟨fun i => inCall (s.status i), s.data, s.epoch, s.results⟩

/-- The epoch after a section that gives the lock up. -/
def epochAfter (epoch : Nat) : Wake → Nat
  | .nobody => epoch
  | .one | .all => nextEpoch epoch

inductive Moves (o : Object σ ρ) (v : View τ σ ρ) : View τ σ ρ → Prop
  | enter (i : τ) (call : ρ) : o.starts call → v.calls i = none →
      Moves o v { v with calls := Function.update v.calls i (some call) }
  | wait (i : τ) (call next : ρ) (data : σ) : v.calls i = some call →
      o.body v.data call = .wait data next →
      Moves o v { v with calls := Function.update v.calls i (some next), data := data }
  | goOn (i : τ) (call next : ρ) : v.calls i = some call → o.body v.data call = .goOn next →
      Moves o v { v with calls := Function.update v.calls i (some next) }
  | leave (i : τ) (call : ρ) (data : σ) (w : Wake) : v.calls i = some call →
      o.body v.data call = .leave data w →
      Moves o v ⟨Function.update v.calls i none, data, epochAfter v.epoch w,
        v.results ++ [(i, call, 0)]⟩
  | stay : Moves o v v

theorem call_update {calls : τ → Option ρ} {i j : τ} {x : Option ρ} {call : ρ}
    (h : Function.update calls i x j = some call) : x = some call ∨ calls j = some call := by
  rw [Function.update_apply] at h
  split at h
  · exact Or.inl h
  · exact Or.inr h

theorem inCall_wake (woken : List τ) (status : τ → Status ρ) (i : τ) :
    inCall (wake woken status i) = inCall (status i) := by
  unfold wake
  split
  · cases status i <;> rfl
  · rfl

theorem view_notify (s : State τ σ ρ) (w : Wake) :
    view (s.notify w) = ⟨(view s).calls, s.data, epochAfter s.epoch w, s.results⟩ := by
  have hcalls : (view (s.notify w)).calls = (view s).calls := by
    cases w with
    | nobody => rfl
    | one | all => exact funext fun i => inCall_wake _ _ i
  cases w <;> exact congrArg (View.mk · _ _ _) hcalls

theorem calls_put (s : State τ σ ρ) (i : τ) (status : Status ρ) :
    (view (s.put i status)).calls = Function.update (view s).calls i (inCall status) := by
  funext j
  simp only [view, State.put, Function.update_apply]
  split <;> rfl

/-- Within its call a thread may move between the lock, the condition and the queue. -/
theorem calls_put_same {s : State τ σ ρ} {i : τ} {status : Status ρ}
    (h : inCall status = inCall (s.status i)) : (view (s.put i status)).calls = (view s).calls := by
  rw [calls_put, h]
  exact Function.update_eq_self i _

theorem step_moves (h : step o s a = some t) : Moves o (view s) (view t) := by
  obtain ⟨i,call,-,hc,hi,rfl⟩ | ⟨i,call,data,next,-,hi,hb,rfl⟩ | ⟨i,call,next,hi,hb,rfl⟩ |
    ⟨i,call,data,w,-,hi,hb,rfl⟩ | ⟨i,call,e,hi,rfl⟩ | ⟨i,call,hi,rfl⟩ := step_cases h
  · have hv : view (s.put i (.inside call)) =
        { view s with calls := Function.update (view s).calls i (some call) } :=
      congrArg (View.mk · _ _ _) (calls_put s i _)
    rw [hv]
    exact .enter i call hc (congrArg inCall hi)
  · have hv : view { s.put i (.captured next s.epoch) with data := data } =
        { view s with calls := Function.update (view s).calls i (some next), data := data } :=
      congrArg (View.mk · _ _ _) (calls_put s i _)
    rw [hv]
    exact .wait i call next data (congrArg inCall hi) hb
  · have hv : view (s.put i (.inside next)) =
        { view s with calls := Function.update (view s).calls i (some next) } :=
      congrArg (View.mk · _ _ _) (calls_put s i _)
    rw [hv]
    exact .goOn i call next (congrArg inCall hi) hb
  · have hn := view_notify s w
    have hv : view ((s.notify w).leave i call data 0) =
        ⟨Function.update (view s).calls i none, data, epochAfter s.epoch w,
          s.results ++ [(i, call, 0)]⟩ := by
      have hcalls := calls_put (s.notify w) i .outside
      rw [congrArg View.calls hn] at hcalls
      have hepoch := congrArg View.epoch hn
      have hres := congrArg View.results hn
      change View.mk (view ((s.notify w).put i .outside)).calls data (view (s.notify w)).epoch
        ((view (s.notify w)).results ++ [(i, call, 0)]) = _
      rw [hcalls, hepoch, hres]
      rfl
    rw [hv]
    exact .leave i call data w (congrArg inCall hi) hb
  · have hv : view (s.put i (.inside call)) = view s :=
      congrArg (View.mk · _ _ _) (calls_put_same (by rw [hi]; rfl))
    rw [hv]
    exact .stay
  · have hv : view { s.put i (.parked call) with waiting := s.waiting ++ [i] } = view s :=
      congrArg (View.mk · _ _ _) (calls_put_same (by rw [hi]; rfl))
    rw [hv]
    exact .stay

/-! The queue and the sleepers. -/

theorem notify_outside {w : Wake} {i : τ} (hi : s.status i = .outside) :
    (s.notify w).status i = .outside := by
  cases w with
  | nobody => exact hi
  | one | all =>
    simp only [State.notify, wake, hi]
    split <;> rfl

theorem notify_captured {w : Wake} {i : τ} {call : ρ} {e : Nat} :
    (s.notify w).status i = .captured call e ↔ s.status i = .captured call e := by
  cases w with
  | nobody => exact Iff.rfl
  | one | all => exact wake_captured _ _

theorem queued_step (h : Queued s) (hs : step o s a = some t) : Queued t := by
  obtain ⟨i,call,-,-,hi,rfl⟩ | ⟨i,call,data,next,-,hi,-,rfl⟩ | ⟨i,call,next,hi,-,rfl⟩ |
    ⟨i,call,data,w,-,hi,-,rfl⟩ | ⟨i,call,e,hi,rfl⟩ | ⟨i,call,hi,rfl⟩ := step_cases hs
  · exact h.put (by simp [hi]) (by simp)
  · have hput : Queued (s.put i (.captured next s.epoch)) := h.put (by simp [hi]) (by simp)
    exact ⟨hput.nodup, hput.mem⟩
  · exact h.put (by simp [hi]) (by simp)
  · have hput : Queued ((s.notify w).put i .outside) :=
      (h.notify w).put (by simp [notify_status_inside w hi]) (by simp)
    exact ⟨hput.nodup, hput.mem⟩
  · exact h.put (by simp [hi]) (by simp)
  · exact h.park hi

/-- Nobody is parked, or on the way there, but while the object blocks. -/
def Asleep (blocked : σ → Prop) (s : State τ σ ρ) : Prop :=
  ∀ i call, Sleeps s i call → blocked s.data

/-- A section waits only while the object blocks, and unblocks it only with `notify_all`. -/
def Keeps (o : Object σ ρ) (blocked : σ → Prop) (data : σ) (call : ρ) : Prop :=
  (∀ after next, o.body data call = .wait after next → blocked after) ∧
  (∀ after w, o.body data call = .leave after w → w = .all ∨
    (w = .nobody ∧ (blocked data → blocked after)))

/-- No notification brings the 64-bit epoch round to one that a thread on its way into the
queue has captured. -/
def NoLap (o : Object σ ρ) (s : State τ σ ρ) : Action τ ρ → Prop
  | .critical i => ∀ call data w, s.status i = .inside call →
      o.body s.data call = .leave data w → w ≠ .nobody →
        ∀ j call', s.status j ≠ .captured call' (nextEpoch s.epoch)
  | _ => True

theorem Asleep.put {blocked : σ → Prop} {i : τ} {status : Status ρ} (h : Asleep blocked s)
    (hs : ∀ call, status = .parked call ∨ status = .captured call s.epoch → blocked s.data) :
    Asleep blocked (s.put i status) := by
  intro j call hj
  obtain hj | hj | hj := sleeps_put hj
  · exact hs call (Or.inl hj)
  · exact hs call (Or.inr hj)
  · exact h j call hj

theorem Asleep.step {blocked : σ → Prop} (h : Asleep blocked s) (hq : Queued s)
    (hkeep : ∀ i call, a = .critical i → s.status i = .inside call → Keeps o blocked s.data call)
    (hlap : NoLap o s a) (hs : Phases.step o s a = some t) : Asleep blocked t := by
  obtain ⟨i,call,-,-,-,rfl⟩ | ⟨i,call,data,next,ha,hi,hb,rfl⟩ | ⟨i,call,next,-,-,rfl⟩ |
    ⟨i,call,data,w,rfl,hi,hb,rfl⟩ | ⟨i,call,e,-,rfl⟩ | ⟨i,call,hi,rfl⟩ := step_cases hs
  · exact h.put (by simp)
  · exact fun _ _ _ => (hkeep i call ha hi).1 data next hb
  · exact h.put (by simp)
  · intro j call' hj
    have hj := (sleeps_leave hj).2
    obtain rfl | ⟨rfl,hstays⟩ := (hkeep i call rfl hi).2 data w hb
    · exact absurd (sleeps_notify_all hq hj) (hlap call data .all hi hb (by decide) j call')
    · exact hstays (h j call' hj)
  · exact h.put (by simp)
  · exact h.put (s := s) (i := i) fun _ _ => h i call (Or.inr hi)

omit [DecidableEq τ] in
theorem queued_start (data : σ) : Queued (start data : State τ σ ρ) :=
  ⟨List.nodup_nil, fun i => by simp [start]⟩

omit [DecidableEq τ] in
theorem asleep_start {blocked : σ → Prop} (data : σ) :
    Asleep blocked (start data : State τ σ ρ) :=
  fun i call h => by simp [Sleeps, start] at h

/-- In every run whose notifications lap nobody, sections that keep to it leave nobody
parked once the object blocks no longer. -/
theorem asleep_reachable {blocked : σ → Prop} {data : σ} {C : State τ σ ρ → Action τ ρ → Prop}
    (hkeep : ∀ s i call, C s (.critical i) → s.status i = .inside call →
      Keeps o blocked s.data call)
    (hlap : ∀ s a, C s a → NoLap o s a) (h : ((machine τ o data).under C).Reachable s) :
    Asleep blocked s := by
  have hinv : ((machine τ o data).under C).Invariant fun s => Queued s ∧ Asleep blocked s := by
    refine ⟨?_, fun s t ⟨hq,ha⟩ ⟨a,hc,hs⟩ => ⟨queued_step hq hs, ?_⟩⟩
    · rintro s rfl
      exact ⟨queued_start data, asleep_start data⟩
    · exact ha.step hq (fun i call hi => hkeep s i call (hi ▸ hc)) (hlap s a hc) hs
  exact (hinv.reachable h).2

end NetKernel.Phases
