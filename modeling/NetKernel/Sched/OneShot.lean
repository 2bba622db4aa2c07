import Mathlib.Data.Finset.Card
import NetKernel.Sched.Phases

/-! The one-shot waits over `Condition`: `Future`, `CountDownLatch` and `Barrier`. -/
namespace NetKernel.OneShots
open Runs Conditions Phases

variable {τ : Type*} [DecidableEq τ]

/-! `Future`. -/

structure FutureData (T : Type*) where
  ready : Bool
  value : T
deriving DecidableEq, Repr

/-- `get` gives the lock up before it reads the value: `read` is `get` past the `unlock`,
and `ret` is `get` with the value it has read. -/
inductive FutureCall (T : Type*) where
  | set (v : T)
  | get
  | read
  | ret (v : T)
deriving DecidableEq, Repr

section Future
variable {T : Type*}

def futureBody (d : FutureData T) : FutureCall T → Section (FutureData T) (FutureCall T)
  | .set v => .leave ⟨true, v⟩ .all
  | .get => if d.ready then .goOn .read else .wait d .get
  | .read => .goOn (.ret d.value)
  | .ret _ => .leave d .nobody

def future (T : Type*) : Object (FutureData T) (FutureCall T) where
  starts
    | .set _ | .get => true
    | .read | .ret _ => false
  body := futureBody

/-- Some `set()` has set the value. -/
def Given (results : List (τ × FutureCall T × Int)) (x : T) : Prop :=
  ∃ j r, (j, .set x, r) ∈ results

/-- What is ready was given, what is read was ready, and what is returned was given. -/
structure Honest (v : View τ (FutureData T) (FutureCall T)) : Prop where
  ready : v.data.ready → Given v.results v.data.value
  reading : ∀ i, v.calls i = some .read → v.data.ready
  returning : ∀ i x, v.calls i = some (.ret x) → Given v.results x
  returned : ∀ i x r, (i, .ret x, r) ∈ v.results → Given v.results x

theorem future_keeps (d : FutureData T) (call : FutureCall T) :
    Keeps (future T) (fun d => ¬d.ready) d call := by
  refine ⟨fun after next hb => ?_, fun after w hb => ?_⟩
  · cases call with
    | get =>
      simp only [future, futureBody] at hb
      split at hb <;> cases hb
      assumption
    | set | read | ret => cases hb
  · cases call with
    | set v =>
      cases hb
      exact Or.inl rfl
    | get =>
      simp only [future, futureBody] at hb
      split at hb <;> cases hb
    | read => cases hb
    | ret =>
      cases hb
      exact Or.inr ⟨rfl, id⟩

theorem Honest.update {v : View τ (FutureData T) (FutureCall T)} (h : Honest v) {i : τ}
    {call : Option (FutureCall T)} (hread : call = some .read → v.data.ready)
    (hret : ∀ x, call = some (.ret x) → Given v.results x) :
    Honest { v with calls := Function.update v.calls i call } := by
  refine ⟨h.ready, fun j hj => ?_, fun j x hj => ?_, h.returned⟩
  · obtain hi | hold := call_update hj
    · exact hread hi
    · exact h.reading j hold
  · obtain hi | hold := call_update hj
    · exact hret x hi
    · exact h.returning j x hold

theorem Honest.leave {v : View τ (FutureData T) (FutureCall T)} (h : Honest v) {i : τ}
    {call : FutureCall T} {data : FutureData T} {epoch : Nat}
    (hready : v.data.ready → data.ready)
    (hdata : data.ready → Given (v.results ++ [(i, call, 0)]) data.value)
    (hret : ∀ x, call = .ret x → Given v.results x) :
    Honest ⟨Function.update v.calls i none, data, epoch, v.results ++ [(i, call, 0)]⟩ := by
  have hmore {x : T} : Given v.results x → Given (v.results ++ [(i, call, 0)]) x :=
    fun ⟨j,r,hj⟩ => ⟨j, r, List.mem_append_left _ hj⟩
  refine ⟨hdata, fun j hj => ?_, fun j x hj => ?_, fun j x r hj => ?_⟩
  · obtain hi | hold := call_update hj
    · cases hi
    · exact hready (h.reading j hold)
  · obtain hi | hold := call_update hj
    · cases hi
    · exact hmore (h.returning j x hold)
  · rw [List.mem_append, List.mem_singleton] at hj
    cases hj with
    | inl hold => exact hmore (h.returned j x r hold)
    | inr hnew =>
      cases hnew
      exact hmore (hret x rfl)

theorem Honest.step {v w : View τ (FutureData T) (FutureCall T)} (h : Honest v)
    (hm : Moves (future T) v w) : Honest w := by
  cases hm with
  | enter i call hc =>
    refine h.update (fun he => ?_) fun x he => ?_
    · cases he
      cases hc
    · cases he
      cases hc
  | wait i call next data hi hb =>
    cases call with
    | get =>
      simp only [future, futureBody] at hb
      split at hb <;> cases hb
      exact h.update (fun he => by cases he) fun x he => by cases he
    | set | read | ret => cases hb
  | goOn i call next hi hb =>
    cases call with
    | get =>
      simp only [future, futureBody] at hb
      split at hb <;> cases hb
      exact h.update (fun _ => ‹_›) fun x he => by cases he
    | read =>
      cases hb
      refine h.update (fun he => by cases he) fun x he => ?_
      cases he
      exact h.ready (h.reading i hi)
    | set | ret => cases hb
  | leave i call data w hi hb =>
    cases call with
    | set x =>
      cases hb
      exact h.leave (fun _ => rfl)
        (fun _ => ⟨i, 0, List.mem_append_right _ (List.mem_singleton.mpr rfl)⟩)
        fun y he => by cases he
    | get =>
      simp only [future, futureBody] at hb
      split at hb <;> cases hb
    | read => cases hb
    | ret x =>
      cases hb
      refine h.leave id (fun hr => ?_) fun y he => ?_
      · obtain ⟨j,r,hj⟩ := h.ready hr
        exact ⟨j, r, List.mem_append_left _ hj⟩
      · cases he
        exact h.returning i x hi
  | stay => exact h

theorem honest_invariant (value : T) :
    (machine τ (future T) ⟨false, value⟩).system.Invariant fun s => Honest (view s) where
  init := by
    rintro s rfl
    exact ⟨fun h => (by cases h), fun i h => (by cases h), fun i x h => (by cases h),
      fun i x r h => (by cases h)⟩
  step := fun _ _ h ⟨_,_,hs⟩ => h.step (step_moves hs)

end Future

/-! `CountDownLatch`. -/

inductive LatchCall where
  | up | down | sync
deriving DecidableEq, Repr

def latchBody (count : UInt64) : LatchCall → Section UInt64 LatchCall
  | .up => .leave (count+1) .nobody
  | .down =>
    if count = 0 then .assertFails
    else if count-1 = 0 then .leave (count-1) .all
    else .leave (count-1) .nobody
  | .sync => if count ≠ 0 then .wait count .sync else .leave count .nobody

def latch : Object UInt64 LatchCall where
  starts _ := true
  body := latchBody

/-- No `up()` takes the 64-bit count round to 0. -/
def NoWrap (s : State τ UInt64 LatchCall) : Action τ LatchCall → Prop
  | .critical i => s.status i = .inside .up → s.data+1 ≠ 0
  | _ => True

theorem latch_keeps {count : UInt64} {call : LatchCall} (hwrap : call = .up → count+1 ≠ 0) :
    Keeps latch (· ≠ 0) count call := by
  refine ⟨fun after next hb => ?_, fun after w hb => ?_⟩
  · cases call with
    | up => cases hb
    | down =>
      simp only [latch, latchBody] at hb
      split at hb
      · cases hb
      · split at hb <;> cases hb
    | sync =>
      simp only [latch, latchBody] at hb
      split at hb <;> cases hb
      assumption
  · cases call with
    | up =>
      cases hb
      exact Or.inr ⟨rfl, fun _ => hwrap rfl⟩
    | down =>
      simp only [latch, latchBody] at hb
      split at hb
      · cases hb
      · split at hb <;> cases hb
        · exact Or.inl rfl
        · exact Or.inr ⟨rfl, fun _ => ‹_›⟩
    | sync =>
      simp only [latch, latchBody] at hb
      split at hb <;> cases hb
      exact Or.inr ⟨rfl, id⟩

theorem sync_zero {s t : State τ UInt64 LatchCall} {a : Action τ LatchCall} {i : τ} {r : Int}
    (hs : step latch s a = some t) (hr : t.results = s.results ++ [(i, .sync, r)]) :
    s.status i = .inside .sync ∧ s.data = 0 := by
  have hsame (h : t.results = s.results) : False := by
    rw [h] at hr
    simpa using congrArg List.length hr
  obtain ⟨j,call,-,-,-,rfl⟩ | ⟨j,call,data,next,-,-,-,rfl⟩ | ⟨j,call,next,-,-,rfl⟩ |
    ⟨j,call,data,w,-,hj,hb,rfl⟩ | ⟨j,call,e,-,rfl⟩ | ⟨j,call,-,rfl⟩ := step_cases hs
  · exact (hsame rfl).elim
  · exact (hsame rfl).elim
  · exact (hsame rfl).elim
  · have hn : (s.notify w).results = s.results := congrArg View.results (view_notify s w)
    change (s.notify w).results ++ [(j, call, 0)] = s.results ++ [(i, .sync, r)] at hr
    rw [hn, List.append_cancel_left_eq] at hr
    cases hr
    refine ⟨hj, ?_⟩
    simp only [latch, latchBody] at hb
    split at hb
    · cases hb
    · exact not_not.mp ‹_›
  · exact (hsame rfl).elim
  · exact (hsame rfl).elim

/-! `Barrier`. -/

/-- `waiting` is `sync` past its decrement, in the loop that waits for the count. -/
inductive BarrierCall where
  | sync | waiting
deriving DecidableEq, Repr

def barrierBody (count : UInt64) : BarrierCall → Section UInt64 BarrierCall
  | .sync => if count-1 = 0 then .leave (count-1) .all else .wait (count-1) .waiting
  | .waiting => if count ≠ 0 then .wait count .waiting else .leave count .nobody

def barrier : Object UInt64 BarrierCall where
  starts call := call = .sync
  body := barrierBody

def Among (threads : Finset τ) (_ : State τ UInt64 BarrierCall) : Action τ BarrierCall → Prop
  | .call i _ => i ∈ threads
  | _ => True

/-- A thread that has taken its part of the count: it waits for the others, or came back. -/
def Arrived (v : View τ UInt64 BarrierCall) (i : τ) : Prop :=
  v.calls i = some .waiting ∨ i ∈ v.results.map Prod.fst

def waiters (threads : Finset τ) (calls : τ → Option BarrierCall) : Finset τ :=
  threads.filter fun i => calls i = some .waiting

theorem barrier_keeps (count : UInt64) (call : BarrierCall) :
    Keeps barrier (· ≠ 0) count call := by
  refine ⟨fun after next hb => ?_, fun after w hb => ?_⟩
  · cases call with
    | sync | waiting =>
      simp only [barrier, barrierBody] at hb
      split at hb <;> cases hb
      assumption
  · cases call with
    | sync =>
      simp only [barrier, barrierBody] at hb
      split at hb <;> cases hb
      exact Or.inl rfl
    | waiting =>
      simp only [barrier, barrierBody] at hb
      split at hb <;> cases hb
      exact Or.inr ⟨rfl, id⟩

/-! What is left of the count and the threads that wait for it add up, until the last of
them arrives; after that the count is 0, or below it by the threads that came again. -/

structure Closed (n : UInt64) (threads : Finset τ) (v : View τ UInt64 BarrierCall) : Prop where
  results : v.results = []
  epoch : v.epoch = 0
  count : v.data.toNat + (waiters threads v.calls).card = n.toNat
  pos : threads.Nonempty → v.data ≠ 0

structure Opened (n : UInt64) (threads : Finset τ) (v : View τ UInt64 BarrierCall) : Prop where
  epoch : v.epoch = 1
  card : threads.card = n.toNat
  arrived : ∀ i ∈ threads, Arrived v i
  count : v.data = 0 ∨ 2^64 ≤ v.data.toNat + (waiters threads v.calls).card

section Barrier
variable {n : UInt64} {threads : Finset τ} {v w : View τ UInt64 BarrierCall}

theorem waiters_update {calls : τ → Option BarrierCall} {i : τ} {x : Option BarrierCall}
    (hi : calls i ≠ some .waiting) (hx : x ≠ some .waiting) :
    waiters threads (Function.update calls i x) = waiters threads calls := by
  refine Finset.filter_congr fun j _ => ?_
  rw [Function.update_apply]
  split
  · rename_i hj
    subst hj
    exact ⟨fun h => absurd h hx, fun h => absurd h hi⟩
  · exact Iff.rfl

theorem waiters_arrive {calls : τ → Option BarrierCall} {i : τ} (hmem : i ∈ threads)
    (hi : calls i ≠ some .waiting) :
    (waiters threads (Function.update calls i (some .waiting))).card =
      (waiters threads calls).card + 1 := by
  have hnot : i ∉ waiters threads calls := fun h => hi (Finset.mem_filter.mp h).2
  rw [← Finset.card_insert_of_notMem hnot]
  congr 1
  ext j
  simp only [waiters, Finset.mem_filter, Finset.mem_insert, Function.update_apply]
  by_cases hj : j = i
  · subst hj
    simp [hmem]
  · simp [hj]

omit [DecidableEq τ] in
theorem waiters_lt {calls : τ → Option BarrierCall} {i : τ} (hmem : i ∈ threads)
    (hi : calls i ≠ some .waiting) : (waiters threads calls).card < threads.card :=
  Finset.card_lt_card (Finset.filter_ssubset.mpr ⟨i, hmem, hi⟩)

theorem toNat_sub_one {count : UInt64} (h : count ≠ 0) : (count-1).toNat + 1 = count.toNat := by
  have hpos : count.toNat ≠ 0 := fun h0 => h (UInt64.toNat_inj.mp h0)
  have hlt := count.toNat_lt
  rw [UInt64.toNat_sub]
  change (2^64 - 1 + count.toNat) % 2^64 + 1 = count.toNat
  omega

theorem Closed.arrive (h : Closed n threads v) {i : τ} (hmem : i ∈ threads)
    (hi : v.calls i = some .sync) (hne : v.data-1 ≠ 0) :
    Closed n threads { v with
      calls := Function.update v.calls i (some .waiting)
      data := v.data-1 } := by
  have hw : v.calls i ≠ some .waiting := by simp [hi]
  refine ⟨h.results, h.epoch, ?_, fun _ => hne⟩
  have hone := toNat_sub_one (h.pos ⟨i, hmem⟩)
  have hcount := h.count
  change (v.data-1).toNat + (waiters threads (Function.update v.calls i _)).card = n.toNat
  rw [waiters_arrive hmem hw]
  omega

theorem Closed.last (h : Closed n threads v) (hcard : threads.card ≤ n.toNat) {i : τ}
    (hmem : i ∈ threads) (hi : v.calls i = some .sync) (hz : v.data-1 = 0) :
    Opened n threads ⟨Function.update v.calls i none, v.data-1, epochAfter v.epoch .all,
      v.results ++ [(i, .sync, 0)]⟩ := by
  have hw : v.calls i ≠ some .waiting := by simp [hi]
  have hone := toNat_sub_one (h.pos ⟨i, hmem⟩)
  rw [hz] at hone
  have hcount := h.count
  have hlt := waiters_lt hmem hw
  have hfull : (waiters threads v.calls).card + 1 = threads.card := by
    change 0 + 1 = _ at hone
    omega
  have hall : waiters threads v.calls = threads.erase i := by
    refine Finset.eq_of_subset_of_card_le (fun j hj => ?_) ?_
    · obtain ⟨hj,hwait⟩ := Finset.mem_filter.mp hj
      exact Finset.mem_erase.mpr ⟨fun he => hw (he ▸ hwait), hj⟩
    · rw [Finset.card_erase_of_mem hmem]
      omega
  refine ⟨?_, ?_, fun j hj => ?_, Or.inl hz⟩
  · change nextEpoch v.epoch = 1
    rw [h.epoch]
    rfl
  · change 0 + 1 = _ at hone
    omega
  · by_cases hji : j = i
    · subst hji
      exact Or.inr (by simp)
    · have hwait : j ∈ waiters threads v.calls := hall ▸ Finset.mem_erase.mpr ⟨hji, hj⟩
      refine Or.inl ?_
      change Function.update v.calls i none j = _
      rw [Function.update_of_ne hji]
      exact (Finset.mem_filter.mp hwait).2

theorem Opened.arrive (h : Opened n threads v) {i : τ} (hmem : i ∈ threads)
    (hi : v.calls i = some .sync) :
    Opened n threads { v with
      calls := Function.update v.calls i (some .waiting)
      data := v.data-1 } := by
  have hw : v.calls i ≠ some .waiting := by simp [hi]
  refine ⟨h.epoch, h.card, fun j hj => ?_, Or.inr ?_⟩
  · by_cases hji : j = i
    · exact Or.inl (by simp [hji])
    · refine (h.arrived j hj).imp_left fun hj => ?_
      change Function.update v.calls i _ j = _
      rwa [Function.update_of_ne hji]
  · change 2^64 ≤ (v.data-1).toNat + (waiters threads (Function.update v.calls i _)).card
    rw [waiters_arrive hmem hw]
    by_cases hz : v.data = 0
    · have hmax : (v.data-1).toNat = 2^64-1 := by rw [hz]; rfl
      omega
    · have hone := toNat_sub_one hz
      have hcount := h.count.resolve_left hz
      omega

omit [DecidableEq τ] in
theorem Opened.not_last (h : Opened n threads v) {i : τ} (hmem : i ∈ threads)
    (hi : v.calls i = some .sync) : v.data-1 ≠ 0 := by
  intro hz
  have hw : v.calls i ≠ some .waiting := by simp [hi]
  have hlt := waiters_lt hmem hw
  have hn := n.toNat_lt
  have hcard := h.card
  have hdata : v.data ≠ 0 := fun h0 => by
    rw [h0] at hz
    cases hz
  have hone := toNat_sub_one hdata
  rw [hz] at hone
  change 0 + 1 = _ at hone
  have hcount := h.count.resolve_left hdata
  omega

theorem Opened.back (h : Opened n threads v) {i : τ} (hz : v.data = 0) :
    Opened n threads ⟨Function.update v.calls i none, v.data, epochAfter v.epoch .nobody,
      v.results ++ [(i, .waiting, 0)]⟩ := by
  refine ⟨h.epoch, h.card, fun j hj => ?_, Or.inl hz⟩
  by_cases hji : j = i
  · subst hji
    exact Or.inr (by simp)
  · refine (h.arrived j hj).imp (fun hw => ?_) fun hr => ?_
    · change Function.update v.calls i none j = _
      rwa [Function.update_of_ne hji]
    · rw [List.map_append]
      exact List.mem_append_left _ hr

theorem Closed.enter (h : Closed n threads v) {i : τ} (hi : v.calls i = none) :
    Closed n threads { v with calls := Function.update v.calls i (some .sync) } := by
  refine ⟨h.results, h.epoch, ?_, h.pos⟩
  change v.data.toNat + (waiters threads (Function.update v.calls i _)).card = n.toNat
  rw [waiters_update (by simp [hi]) (by simp)]
  exact h.count

theorem Opened.enter (h : Opened n threads v) {i : τ} (hi : v.calls i = none) :
    Opened n threads { v with calls := Function.update v.calls i (some .sync) } := by
  refine ⟨h.epoch, h.card, fun j hj => (h.arrived j hj).imp_left fun hw => ?_, ?_⟩
  · have hji : j ≠ i := fun he => by
      rw [he, hi] at hw
      cases hw
    change Function.update v.calls i _ j = _
    rwa [Function.update_of_ne hji]
  · change _ ∨ 2^64 ≤ v.data.toNat + (waiters threads (Function.update v.calls i _)).card
    rw [waiters_update (by simp [hi]) (by simp)]
    exact h.count

theorem phase_moves (hcard : threads.card ≤ n.toNat) (hmem : ∀ i, v.calls i ≠ none → i ∈ threads)
    (h : Closed n threads v ∨ Opened n threads v) (hm : Moves barrier v w) :
    Closed n threads w ∨ Opened n threads w := by
  cases hm with
  | enter i call hc hi =>
    have hsync : call = .sync := of_decide_eq_true hc
    subst hsync
    exact h.imp (·.enter hi) (·.enter hi)
  | wait i call next data hi hb =>
    have hi' : i ∈ threads := hmem i (by simp [hi])
    cases call with
    | sync =>
      simp only [barrier, barrierBody] at hb
      split at hb <;> cases hb
      exact h.imp (·.arrive hi' hi ‹_›) (·.arrive hi' hi)
    | waiting =>
      simp only [barrier, barrierBody] at hb
      split at hb <;> cases hb
      have hsame : Function.update v.calls i (some .waiting) = v.calls := by
        rw [← hi, Function.update_eq_self]
      rw [hsame]
      exact h
  | goOn i call next hi hb =>
    cases call with
    | sync | waiting =>
      simp only [barrier, barrierBody] at hb
      split at hb <;> cases hb
  | leave i call data w hi hb =>
    have hi' : i ∈ threads := hmem i (by simp [hi])
    cases call with
    | sync =>
      simp only [barrier, barrierBody] at hb
      split at hb <;> cases hb
      cases h with
      | inl h => exact Or.inr (h.last hcard hi' hi ‹_›)
      | inr h => exact absurd ‹_› (h.not_last hi' hi)
    | waiting =>
      simp only [barrier, barrierBody] at hb
      split at hb <;> cases hb
      rename_i hz
      cases h with
      | inl h => exact absurd (h.pos ⟨i, hi'⟩) hz
      | inr h => exact Or.inr (h.back (not_not.mp hz))
  | stay => exact h

structure Gate (n : UInt64) (threads : Finset τ) (s : State τ UInt64 BarrierCall) : Prop where
  outside : ∀ i, i ∉ threads → s.status i = .outside
  queued : Queued s
  asleep : Asleep (· ≠ 0) s
  captured : ∀ i call e, s.status i = .captured call e → e ≤ s.epoch
  phase : Closed n threads (view s) ∨ Opened n threads (view s)

variable {s t : State τ UInt64 BarrierCall} {a : Action τ BarrierCall}

omit [DecidableEq τ] in
theorem Gate.mem (h : Gate n threads s) {i : τ} (hi : s.status i ≠ .outside) : i ∈ threads :=
  not_imp_comm.mp (h.outside i) hi

omit [DecidableEq τ] in
theorem Gate.mem_calls (h : Gate n threads s) (i : τ) (hi : (view s).calls i ≠ none) :
    i ∈ threads :=
  h.mem fun ho => hi (congrArg inCall ho)

omit [DecidableEq τ] in
theorem Gate.epoch_zero (h : Gate n threads s) {i : τ} {call : BarrierCall} {data : UInt64}
    {w : Wake} (hi : s.status i = .inside call) (hb : barrier.body s.data call = .leave data w)
    (hw : w ≠ .nobody) : s.epoch = 0 := by
  have hmem := h.mem (i := i) (by simp [hi])
  cases call with
  | sync =>
    simp only [barrier, barrierBody] at hb
    split at hb <;> cases hb
    cases h.phase with
    | inl hc => exact hc.epoch
    | inr ho => exact absurd ‹_› (ho.not_last hmem (congrArg inCall hi))
  | waiting =>
    simp only [barrier, barrierBody] at hb
    split at hb <;> cases hb
    exact absurd rfl hw

omit [DecidableEq τ] in
theorem Gate.noLap (h : Gate n threads s) : NoLap barrier s a := by
  cases a with
  | critical i =>
    intro call data w hi hb hw j call' hj
    have hle := h.captured j call' _ hj
    rw [h.epoch_zero hi hb hw] at hle
    exact absurd hle (by decide)
  | call | retry | postSwitch => trivial

theorem Gate.outside_step (h : Gate n threads s) (hc : Among threads s a)
    (hs : step barrier s a = some t) {j : τ} (hj : j ∉ threads) : t.status j = .outside := by
  have ho := h.outside j hj
  have hother {u : State τ UInt64 BarrierCall} {i : τ} {status : Status BarrierCall}
      (hu : u.status j = .outside) (hi : i ∈ threads) : (u.put i status).status j = .outside := by
    have hne : j ≠ i := fun he => hj (he ▸ hi)
    exact (put_other hne).trans hu
  obtain ⟨i,call,rfl,-,-,rfl⟩ | ⟨i,call,data,next,-,hi,-,rfl⟩ | ⟨i,call,next,hi,-,rfl⟩ |
    ⟨i,call,data,w,-,hi,-,rfl⟩ | ⟨i,call,e,hi,rfl⟩ | ⟨i,call,hi,rfl⟩ := step_cases hs
  · exact hother ho hc
  · exact hother ho (h.mem (by simp [hi]))
  · exact hother ho (h.mem (by simp [hi]))
  · exact hother (notify_outside ho) (h.mem (by simp [hi]))
  · exact hother ho (h.mem (by simp [hi]))
  · exact hother ho (h.mem (by simp [hi]))

theorem Gate.captured_step (h : Gate n threads s) (hs : step barrier s a = some t) {j : τ}
    {call : BarrierCall} {e : Nat} (hj : t.status j = .captured call e) : e ≤ t.epoch := by
  have hput {u : State τ UInt64 BarrierCall} {i : τ} {status : Status BarrierCall}
      (hu : (u.put i status).status j = .captured call e) :
      status = .captured call e ∨ u.status j = .captured call e := by
    rw [put_status] at hu
    split at hu
    · exact Or.inl hu
    · exact Or.inr hu
  obtain ⟨i,c,-,-,-,rfl⟩ | ⟨i,c,data,next,-,-,-,rfl⟩ | ⟨i,c,next,-,-,rfl⟩ |
    ⟨i,c,data,w,-,hi,hb,rfl⟩ | ⟨i,c,e,-,rfl⟩ | ⟨i,c,-,rfl⟩ := step_cases hs
  · exact h.captured j call e ((hput hj).resolve_left (by simp))
  · cases hput hj with
    | inl hnew =>
      cases hnew
      exact Nat.le_refl _
    | inr hold => exact h.captured j call e hold
  · exact h.captured j call e ((hput hj).resolve_left (by simp))
  · have hle := h.captured j call e (notify_captured.mp ((hput hj).resolve_left (by simp)))
    by_cases hw : w = .nobody
    · subst hw
      exact hle
    · rw [h.epoch_zero hi hb hw] at hle
      exact hle.trans (Nat.zero_le _)
  · exact h.captured j call _ ((hput hj).resolve_left (by simp))
  · exact h.captured j call e ((hput hj).resolve_left (by simp))

theorem Gate.step (h : Gate n threads s) (hcard : threads.card ≤ n.toNat)
    (hc : Among threads s a) (hs : Phases.step barrier s a = some t) : Gate n threads t where
  outside _ := h.outside_step hc hs
  queued := queued_step h.queued hs
  asleep := h.asleep.step h.queued (fun _ call _ _ => barrier_keeps s.data call) h.noLap hs
  captured _ _ _ := h.captured_step hs
  phase := phase_moves hcard h.mem_calls h.phase (step_moves hs)

theorem gate_invariant (hcard : threads.card ≤ n.toNat) :
    ((machine τ barrier n).under (Among threads)).Invariant (Gate n threads) where
  init := by
    rintro s rfl
    refine ⟨fun _ _ => rfl, queued_start n, asleep_start n, fun i call e h => (by cases h),
      Or.inl ⟨rfl, rfl, ?_, fun hne h0 => ?_⟩⟩
    · have hnone : waiters threads (view (start n)).calls = ∅ :=
        Finset.filter_eq_empty_iff.mpr fun i _ h => by cases h
      rw [hnone]
      rfl
    · have hn : n.toNat = 0 := congrArg UInt64.toNat h0
      exact absurd (Finset.card_pos.mpr hne) (by omega)
  step := fun _ _ h ⟨_,hc,hs⟩ => h.step hcard hc hs

end Barrier

/-- Nobody is parked in a future that is ready, in a latch at 0 or in a barrier at 0, while no
notification laps the epoch and no `up()` the count; what comes back from a wait has waited
long enough in every run, and a barrier needs neither condition. -/
theorem one_shot (τ T : Type*) [DecidableEq τ] :
    (∀ (value : T) s,
      ((machine τ (future T) ⟨false, value⟩).under (NoLap (future T))).Reachable s →
        ∀ i call, s.status i = .parked call → s.data.ready = false) ∧
    (∀ (value : T) s, (machine τ (future T) ⟨false, value⟩).system.Reachable s →
      ∀ i x r, (i, .ret x, r) ∈ s.results → Given s.results x) ∧
    (∀ s, ((machine τ latch 0).under fun s a => NoLap latch s a ∧ NoWrap s a).Reachable s →
      ∀ i call, s.status i = .parked call → s.data ≠ 0) ∧
    (∀ s t a i r, (machine τ latch 0).system.Reachable s → step latch s a = some t →
      t.results = s.results ++ [(i, .sync, r)] → s.status i = .inside .sync ∧ s.data = 0) ∧
    (∀ (n : UInt64) (threads : Finset τ), threads.card ≤ n.toNat →
      ∀ s, ((machine τ barrier n).under (Among threads)).Reachable s →
        (∀ i call, s.status i = .parked call → s.data ≠ 0) ∧
        (s.results ≠ [] → threads.card = n.toNat ∧ ∀ i ∈ threads, Arrived (view s) i)) := by
  refine ⟨fun value s h i call hi => ?_, fun value s h => ?_, fun s h i call hi => ?_,
    fun s t a i r _ hs hr => sync_zero hs hr, fun n threads hcard s h => ?_⟩
  · have ha := asleep_reachable (fun s _ call _ _ => future_keeps s.data call) (fun _ _ h => h) h
    exact Bool.eq_false_iff.mpr (ha i call (Or.inl hi))
  · exact ((honest_invariant value).reachable h).returned
  · have ha := asleep_reachable (fun s i call hc hi => latch_keeps fun he => hc.2 (he ▸ hi))
      (fun _ _ h => h.1) h
    exact ha i call (Or.inl hi)
  · have hg := (gate_invariant hcard).reachable h
    refine ⟨fun i call hi => hg.asleep i call (Or.inl hi), fun hr => ?_⟩
    cases hg.phase with
    | inl hc => exact absurd hc.results hr
    | inr ho => exact ⟨ho.card, ho.arrived⟩

def setSeven : List (Action Nat (FutureCall Nat)) :=
  [.call 0 .get, .critical 0, .postSwitch 0, .call 1 (.set 7), .critical 1, .critical 0,
    .critical 0, .critical 0]

/-- Thread 0 waits for the one count that thread 1 gives and takes. -/
def countOne : List (Action Nat LatchCall) :=
  [.call 1 .up, .critical 1, .call 0 .sync, .critical 0, .postSwitch 0, .call 1 .down,
    .critical 1]

def twoMeet : List (Action Nat BarrierCall) :=
  [.call 0 .sync, .critical 0, .postSwitch 0, .call 1 .sync, .critical 1]

theorem one_shot_meet :
    ((machine Nat (future Nat) ⟨false, 0⟩).run (start ⟨false, 0⟩) (setSeven.take 3)).data.ready
        = false ∧
    Given ((machine Nat (future Nat) ⟨false, 0⟩).run (start ⟨false, 0⟩) setSeven).results 7 ∧
    ((machine Nat latch 0).run (start 0) (countOne.take 5)).data ≠ 0 ∧
    ((machine Nat latch 0).run (start 0) countOne).data = 0 ∧
    ((machine Nat barrier 2).run (start 2) (twoMeet.take 3)).data ≠ 0 ∧
    (∀ i ∈ ({0, 1} : Finset Nat),
      Arrived (view ((machine Nat barrier 2).run (start 2) twoMeet)) i) := by
  obtain ⟨hparked,hgiven,hlatch,hsync,hbarrier⟩ := one_shot Nat Nat
  have htwo := hbarrier 2 {0, 1} (by decide)
  have hnone {σ ρ : Type} {o : Object σ ρ} {s : State Nat σ ρ} {i : Nat}
      (h : ∀ call data w, s.status i = .inside call → o.body s.data call ≠ .leave data w) :
      NoLap o s (.critical i) :=
    fun call data w hi hb => absurd hb (h call data w hi)
  have hzero : 0 ∈ ({0, 1} : Finset Nat) := by decide
  have hone : 1 ∈ ({0, 1} : Finset Nat) := by decide
  refine ⟨hparked 0 _ (Machine.reachable_run (.init rfl) ⟨trivial, hnone ?_, trivial, trivial⟩)
      0 .get rfl,
    hgiven 0 _ (Machine.reachable_run (.init rfl) Machine.allowed_true) 0 7 0 (by decide),
    hlatch _ (Machine.reachable_run (.init rfl) ?_) 0 .sync rfl, ?_,
    (htwo _ (Machine.reachable_run (.init rfl) ?_)).1 0 .waiting rfl,
    ((htwo _ (Machine.reachable_run (.init rfl) ?_)).2 (by decide)).2⟩
  · intro call data w hi hb
    cases hi
    cases hb
  · refine ⟨⟨trivial, trivial⟩, ⟨?_, ?_⟩, ⟨trivial, trivial⟩, ⟨hnone ?_, ?_⟩,
      ⟨trivial, trivial⟩, trivial⟩
    · intro call data w _ _ _ j call' hj
      match j with
      | 0 | 1 => cases hj
      | _+2 => cases hj
    · exact fun _ => by decide
    · intro call data w hi hb
      cases hi
      cases hb
    · exact fun hi => by cases hi
  · exact (hsync _ _ (.critical 0) 0 0
      (Machine.reachable_run (.init rfl) Machine.allowed_true) rfl rfl).2
  · exact ⟨hzero, trivial, trivial, trivial⟩
  · exact ⟨hzero, trivial, trivial, hone, trivial, trivial⟩

/-! The runs that the two conditions leave out. -/

/-- A thread alone makes a call of one section; whoever is on the way into the queue stays
there, and without a notification everyone stays. -/
theorem alone {σ ρ : Type*} {o : Object σ ρ} {d data : σ}
    {C : State τ σ ρ → Action τ ρ → Prop} {s : State τ σ ρ} {w : Wake} (i : τ) (call : ρ)
    (h : ((machine τ o d).under C).Reachable s) (hi : s.status i = .outside)
    (hstart : o.starts call) (hb : o.body s.data call = .leave data w)
    (hcall : C s (.call i call)) (hcrit : C (s.put i (.inside call)) (.critical i)) :
    ∃ t, ((machine τ o d).under C).Reachable t ∧ t.data = data ∧
      t.epoch = epochAfter s.epoch w ∧ t.status i = .outside ∧
      (∀ j c e, s.status j = .captured c e → t.status j = .captured c e) ∧
      (w = .nobody → ∀ j, j ≠ i → t.status j = s.status j) := by
  have hin : (s.put i (.inside call)).status i = .inside call := put_self
  have hone : Phases.step o s (.call i call) = some (s.put i (.inside call)) := by
    simp only [Phases.step, hi, hstart, if_true]
  have htwo : Phases.step o (s.put i (.inside call)) (.critical i) =
      some (((s.put i (.inside call)).notify w).leave i call data 0) := by
    have hb' : o.body (s.put i (.inside call)).data call = .leave data w := hb
    simp only [Phases.step, hin, hb']
  refine ⟨_, (h.step ⟨_, hcall, hone⟩).step ⟨_, hcrit, htwo⟩, rfl, ?_, ?_, fun j c e hj => ?_,
    fun hw j hj => ?_⟩
  · exact congrArg View.epoch (view_notify (s.put i (.inside call)) w)
  · exact Function.update_self ..
  · have hji : j ≠ i := fun he => by
      rw [he, hi] at hj
      cases hj
    have hput : (s.put i (.inside call)).status j = .captured c e := by
      rw [← hj]
      exact Function.update_of_ne hji ..
    exact (Function.update_of_ne hji ..).trans (notify_captured.mpr hput)
  · subst hw
    exact (Function.update_of_ne hj ..).trans (Function.update_of_ne hj ..)

theorem parks {σ ρ : Type*} {o : Object σ ρ} {d : σ} {C : State τ σ ρ → Action τ ρ → Prop}
    {s : State τ σ ρ} {i : τ} {call : ρ} (h : ((machine τ o d).under C).Reachable s)
    (hi : s.status i = .captured call s.epoch) (hc : C s (.postSwitch i)) :
    ∃ t, ((machine τ o d).under C).Reachable t ∧ t.status i = .parked call ∧ t.data = s.data := by
  have hstep : Phases.step o s (.postSwitch i) =
      some { s.put i (.parked call) with waiting := s.waiting ++ [i] } := by
    simp only [Phases.step, hi, if_true]
  exact ⟨_, h.step ⟨_, hc, hstep⟩, Function.update_self .., rfl⟩

theorem nextEpoch_mod (k : Nat) : nextEpoch (k % 2^64) = (k+1) % 2^64 := Nat.mod_add_mod k _ 1

theorem sets_reachable (k : Nat) :
    ∃ s, (machine Nat (future Nat) ⟨false, 0⟩).system.Reachable s ∧
      s.status 0 = .captured .get 0 ∧ s.status 1 = .outside ∧ s.epoch = k % 2^64 ∧
      (0 < k → s.data.ready) := by
  induction k with
  | zero =>
    exact ⟨(machine Nat (future Nat) ⟨false, 0⟩).run (start ⟨false, 0⟩) [.call 0 .get, .critical 0],
      Machine.reachable_run (.init rfl) Machine.allowed_true, rfl, rfl, rfl, fun h => by cases h⟩
  | succ k ih =>
    obtain ⟨s,hs,h0,h1,he,-⟩ := ih
    obtain ⟨t,ht,hd,he',h1',hcap,-⟩ := alone 1 (.set 7) hs h1 rfl rfl trivial trivial
    refine ⟨t, ht, hcap 0 _ _ h0, h1', ?_, fun _ => by rw [hd]⟩
    rw [he', he]
    exact nextEpoch_mod k

/-- A thread captured epoch 0 at a count of 1, which has come to 0 `k+1` times since. -/
theorem rounds_reachable (k : Nat) :
    ∃ s, ((machine Nat latch 0).under NoWrap).Reachable s ∧
      s.status 0 = .captured .sync 0 ∧ s.status 1 = .outside ∧ s.epoch = (k+1) % 2^64 ∧
      s.data = 0 := by
  induction k with
  | zero =>
    refine ⟨(machine Nat latch 0).run (start 0) [.call 1 .up, .critical 1, .call 0 .sync,
      .critical 0, .call 1 .down, .critical 1], Machine.reachable_run (.init rfl) ?_, rfl, rfl,
      rfl, rfl⟩
    exact ⟨trivial, fun _ => by decide, trivial, fun h => (by cases h), trivial,
      fun h => (by cases h), trivial⟩
  | succ k ih =>
    obtain ⟨s,hs,h0,h1,he,hd⟩ := ih
    have hup : s.data+1 ≠ 0 := by
      rw [hd]
      decide
    obtain ⟨t,ht,hdt,het,h1t,hcapt,-⟩ := alone 1 .up hs h1 rfl rfl trivial fun _ => hup
    rw [hd] at hdt
    have hdown : latch.body t.data .down = .leave 0 .all := by
      rw [hdt]
      rfl
    have hin : NoWrap (t.put 1 (.inside .down)) (.critical 1) := fun h => by
      rw [put_self] at h
      cases h
    obtain ⟨u,hu,hdu,heu,h1u,hcapu,-⟩ := alone 1 .down ht h1t rfl hdown trivial hin
    refine ⟨u, hu, hcapu 0 _ _ (hcapt 0 _ _ h0), h1u, ?_, hdu⟩
    rw [heu, het, he]
    exact nextEpoch_mod (k+1)

theorem ups_reachable (k : Nat) :
    ∃ s, ((machine Nat latch 0).under (NoLap latch)).Reachable s ∧
      s.status 0 = .parked .sync ∧ s.status 1 = .outside ∧ s.data = UInt64.ofNat (k+1) := by
  induction k with
  | zero =>
    refine ⟨(machine Nat latch 0).run (start 0) (countOne.take 5),
      Machine.reachable_run (.init rfl) ?_, rfl, rfl, rfl⟩
    refine ⟨trivial, ?_, trivial, ?_, trivial, trivial⟩
    · intro call data w hi hb hw
      cases hi
      cases hb
      exact absurd rfl hw
    · intro call data w hi hb
      cases hi
      cases hb
  | succ k ih =>
    obtain ⟨s,hs,h0,h1,hd⟩ := ih
    have hlap : NoLap latch (s.put 1 (.inside .up)) (.critical 1) := by
      intro call data w hi hb hw
      rw [put_self] at hi
      cases hi
      cases hb
      exact absurd rfl hw
    obtain ⟨t,ht,hdt,-,h1t,-,hsame⟩ := alone 1 .up hs h1 rfl rfl trivial hlap
    refine ⟨t, ht, (hsame rfl 0 (by decide)).trans h0, h1t, ?_⟩
    rw [hdt, hd]
    exact (UInt64.ofNat_add (k+1) 1).symm

/-- After 2^64 notifications a thread is parked in a ready future, and another in a latch at 0;
2^64 calls of `up()` bring a latch to 0 with a thread parked in it. -/
theorem stranded :
    (∃ s, (machine Nat (future Nat) ⟨false, 0⟩).system.Reachable s ∧
      s.status 0 = .parked .get ∧ s.data.ready = true) ∧
    (∃ s, ((machine Nat latch 0).under NoWrap).Reachable s ∧
      s.status 0 = .parked .sync ∧ s.data = 0) ∧
    (∃ s, ((machine Nat latch 0).under (NoLap latch)).Reachable s ∧
      s.status 0 = .parked .sync ∧ s.data = 0) := by
  refine ⟨?_, ?_, ?_⟩
  · obtain ⟨s,hs,h0,-,he,hr⟩ := sets_reachable (2^64)
    have hcap : s.status 0 = .captured .get s.epoch := by rw [h0, he]; rfl
    obtain ⟨t,ht,hp,hd⟩ := parks hs hcap trivial
    exact ⟨t, ht, hp, hd ▸ hr (by decide)⟩
  · obtain ⟨s,hs,h0,-,he,hz⟩ := rounds_reachable (2^64-1)
    have hcap : s.status 0 = .captured .sync s.epoch := by rw [h0, he]; rfl
    obtain ⟨t,ht,hp,hd⟩ := parks hs hcap trivial
    exact ⟨t, ht, hp, hd.trans hz⟩
  · obtain ⟨s,hs,hp,-,hd⟩ := ups_reachable (2^64-1)
    exact ⟨s, hs, hp, hd⟩

end NetKernel.OneShots
