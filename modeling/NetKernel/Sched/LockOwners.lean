import NetKernel.Sched.Cores

/-! Which spin locks a thread owns when its core leaves it. The kernel's calls are given
by the locks they take, in order; a call that prints or allocates under a spin lock can
be switched out with it. -/
namespace NetKernel.LockOwners
open Runs Cores

/-! Code by the locks it takes: `guard` is the scope of a `LockGuard` on a spin lock,
`alt` a branch on data, `star` a loop. -/

inductive Code (L B : Type*) where
  | done
  | lock (b : B)
  | unlock (b : B)
  | guard (l : L) (body : Code L B)
  | seq (first second : Code L B)
  | alt (left right : Code L B)
  | star (body : Code L B)

variable {κ τ L B : Type*}

/-- The steps that a run of the code can take. -/
inductive Trace : Code L B → List (Instr L B) → Prop
  | done : Trace .done []
  | lock (b : B) : Trace (.lock b) [.acquire (.inner b), .test b]
  | unlock (b : B) : Trace (.unlock b) [.acquire (.inner b), .clear b]
  | guard {l : L} {body : Code L B} {xs : List (Instr L B)} : Trace body xs →
    Trace (.guard l body) (.acquire (.named l) :: xs ++ [.release (.named l)])
  | seq {p q : Code L B} {xs ys : List (Instr L B)} : Trace p xs → Trace q ys →
    Trace (.seq p q) (xs ++ ys)
  | left {p q : Code L B} {xs : List (Instr L B)} : Trace p xs → Trace (.alt p q) xs
  | right {p q : Code L B} {xs : List (Instr L B)} : Trace q xs → Trace (.alt p q) xs
  | stop {p : Code L B} : Trace (.star p) []
  | again {p : Code L B} {xs ys : List (Instr L B)} : Trace p xs → Trace (.star p) ys →
    Trace (.star p) (xs ++ ys)

def Code.all : List (Code L B) → Code L B
  | [] => .done
  | p :: ps => .seq p (.all ps)

/-! The kernel's calls. -/

inductive SpinLock where
  | net | arpCache | udp | chat | stats | sem | shared
  | middle (node : Nat)
deriving DecidableEq, Repr

inductive BlockingLock where
  | say | putch | heap
deriving DecidableEq, Repr

abbrev KernelCode := Code SpinLock BlockingLock

/-- Takes `putch_spin` for every look at the UART until it is ready. -/
def putch : KernelCode :=
  .seq (.star (.seq (.lock .putch) (.unlock .putch))) (.seq (.lock .putch) (.unlock .putch))

/-- `print_lock`, at least one character, `print_unlock`. -/
def kprint : KernelCode := .seq (.lock .say) (.seq (.seq putch (.star putch)) (.unlock .say))

def malloc : KernelCode := .seq (.lock .heap) (.unlock .heap)

/-- The counting branch of `leak`. -/
def leak : KernelCode := .seq (.lock .heap) (.unlock .heap)

def netStatsIncrement : KernelCode := .guard .stats .done

/-- `reclaim_virtio_tx_locked` and `reclaim_tx_locked`: a line for each slot. -/
def reclaimTxLocked : KernelCode := .star kprint

def netDebugDumpFrame : KernelCode := .star kprint

/-- A full ring, or a frame put on it. -/
def virtioSendRawLocked : KernelCode := .seq reclaimTxLocked kprint

def netSendRaw : KernelCode :=
  .alt .done (.guard .net (.alt .done (.alt
    (.seq virtioSendRawLocked (.alt .done netStatsIncrement))
    (.seq reclaimTxLocked (.alt kprint (.seq kprint (.alt netStatsIncrement
      (Code.all [kprint, netDebugDumpFrame, reclaimTxLocked, netStatsIncrement]))))))))

def netRecvRaw : KernelCode :=
  .alt .done (.guard .net (.alt .done (.seq kprint (.alt .done netStatsIncrement))))

def netFakeInjectRx : KernelCode :=
  .alt .done (.guard .net (.alt .done (.alt kprint (.seq kprint netDebugDumpFrame))))

def printIp : KernelCode := kprint

def printMac : KernelCode := kprint

def arpCacheInsert : KernelCode :=
  .alt .done (.guard .arpCache (.seq (.alt .done (Code.all [kprint, printIp, kprint]))
    (Code.all [kprint, printIp, kprint, printMac, kprint])))

def arpCacheLookup : KernelCode :=
  .alt .done (.guard .arpCache (Code.all [kprint, printIp, kprint]))

def udpRegisterHandler : KernelCode := .alt .done (.guard .udp (.alt .done kprint))

def netChatPrintHistory : KernelCode :=
  .guard .chat (.seq kprint (.star (Code.all [kprint, printIp, kprint])))

/-- `chat_udp_handler` gives its lock up before it prints. -/
def chatUdpHandler : KernelCode :=
  .alt .done (.seq (.guard .chat .done) (Code.all [kprint, printIp, kprint]))

def semget : KernelCode := .alt .done (.guard .sem (.alt .done (.seq malloc leak)))

/-- The copy of a `StrongRef` or its end; a null one has no `Middle`. -/
def strongRef (node : Nat) : KernelCode := .alt .done (.guard (.middle node) .done)

/-- `mmap` of a shared region: `insert_vme` gets a reference to the file, and when it finds room
it allocates and keeps another. -/
def mmapShared (node : Nat) : KernelCode :=
  .alt .done (.guard .shared
    (Code.all [strongRef node, .alt .done (.seq malloc (strongRef node)), strongRef node]))

/-- The calls, with the file that `mmap` gets. -/
def kernelCalls (node : Nat) : List KernelCode :=
  [netSendRaw, netRecvRaw, netFakeInjectRx, arpCacheInsert, arpCacheLookup, udpRegisterHandler,
    netChatPrintHistory, chatUdpHandler, semget, mmapShared node]

/-- Threads call nothing but these. -/
def KernelCall (_ : State κ τ SpinLock BlockingLock) : Action κ SpinLock BlockingLock → Prop
  | .call _ code => ∃ node, ∃ p ∈ kernelCalls node, Trace p code
  | _ => True

/-- A thread that owns a spin lock and finds its blocking lock taken also finds the ready
queue empty. -/
def Uncontended (s : State κ τ L B) : Action κ L B → Prop
  | .exec c => ∀ i b rest, s.running c = some i → s.code i = .look b :: rest → s.ready ≠ [] →
    ∀ l, s.owner l ≠ some i
  | _ => True

/-- No thread in the ready queue or in a condition's waiting queue owns a spin lock. -/
def NoneDescheduled (s : State κ τ L B) : Prop :=
  ∀ i l, i ∈ s.ready ∨ (∃ b, i ∈ s.waiting b) → s.owner l ≠ some i

/-! Every lock that code takes it gives up later on. -/

/-- The locks whose release code still contains. -/
def pending : List (Instr L B) → List (Spin L B)
  | [] => []
  | .release l :: rest => l :: pending rest
  | .test b :: rest | .clear b :: rest | .recheck b :: rest => .inner b :: pending rest
  | _ :: rest => pending rest

def Balanced : List (Instr L B) → Prop
  | [] => True
  | .acquire l :: rest => l ∈ pending rest ∧ Balanced rest
  | _ :: rest => Balanced rest

theorem pending_append (xs ys : List (Instr L B)) : pending (xs ++ ys) = pending xs ++ pending ys := by
  induction xs with
  | nil => rfl
  | cons x xs ih => cases x <;> simp [pending, ih]

theorem Balanced.append {xs ys : List (Instr L B)} (hx : Balanced xs) (hy : Balanced ys) :
    Balanced (xs ++ ys) := by
  induction xs with
  | nil => exact hy
  | cons x xs ih =>
    cases x with
    | acquire l =>
      refine ⟨?_, ih hx.2⟩
      change l ∈ pending (xs ++ ys)
      rw [pending_append]
      exact List.mem_append_left _ hx.1
    | release | test | look | clear | enqueue | recheck => exact ih hx

theorem Trace.balanced {p : Code L B} {xs : List (Instr L B)} (h : Trace p xs) : Balanced xs := by
  induction h with
  | done | stop => trivial
  | lock b | unlock b => exact ⟨List.mem_cons_self, trivial⟩
  | @guard l body xs _ ih =>
    refine ⟨?_, ih.append trivial⟩
    change .named l ∈ pending (xs ++ [.release (.named l)])
    rw [pending_append]
    exact List.mem_append_right _ List.mem_cons_self
  | seq _ _ ihx ihy | again _ _ ihx ihy => exact ihx.append ihy
  | left _ ih | right _ ih => exact ih

/-- An owner is running and has the release before it. -/
structure Owned (s : State κ τ L B) : Prop where
  balanced : ∀ i, Balanced (s.code i)
  owner : ∀ l i, s.owner l = some i → (∃ c, s.running c = some i) ∧ l ∈ pending (s.code i)

theorem Owned.noneDescheduled {s : State κ τ L B} (ho : Owned s) (hp : Placed s) :
    NoneDescheduled s := by
  intro i l hi hl
  obtain ⟨⟨c,hc⟩,-⟩ := ho.owner l i hl
  cases hi with
  | inl hr => cases hp.unique i (.running c) .ready hc hr
  | inr hw =>
    obtain ⟨b,hb⟩ := hw
    cases hp.unique i (.running c) (.waiting b) hc hb

variable [DecidableEq κ] [DecidableEq τ]
variable {s t : State κ τ L B} {c : κ} {i j : τ} {code : List (Instr L B)}

omit [DecidableEq κ] in
theorem Owned.goto (h : Owned s) (hb : Balanced code)
    (hp : ∀ l, s.owner l = some i → l ∈ pending code) : Owned (s.goto i code) := by
  refine ⟨fun k => ?_, fun l k hl => ⟨(h.owner l k hl).1, ?_⟩⟩
  · by_cases hk : k = i
    · subst hk
      simpa only [State.goto, Function.update_self] using hb
    · simpa only [State.goto, Function.update_of_ne hk] using h.balanced k
  · by_cases hk : k = i
    · subst hk
      simpa only [State.goto, Function.update_self] using hp l hl
    · simpa only [State.goto, Function.update_of_ne hk] using (h.owner l k hl).2

theorem Owned.switch {duty : List (Instr L B)} (h : Owned s) (hc : s.running c = some i)
    (hnone : ∀ l, s.owner l ≠ some i) (hd : Balanced duty) : Owned (s.switch c i j duty) := by
  refine ⟨fun k => ?_, fun l k hl => ?_⟩
  · by_cases hk : k = j
    · subst hk
      simpa only [State.switch, Function.update_self] using hd.append (h.balanced k)
    · simpa only [State.switch, Function.update_of_ne hk] using h.balanced k
  · obtain ⟨⟨c',hc'⟩,hpend⟩ := h.owner l k hl
    have hcc : c' ≠ c := by
      rintro rfl
      rw [hc] at hc'
      cases hc'
      exact hnone l hl
    refine ⟨⟨c', by simpa only [State.switch, Function.update_of_ne hcc] using hc'⟩, ?_⟩
    by_cases hk : k = j
    · subst hk
      simp only [State.switch, Function.update_self, pending_append]
      exact List.mem_append_right _ hpend
    · simpa only [State.switch, Function.update_of_ne hk] using hpend

variable [DecidableEq L] [DecidableEq B] {l : Spin L B}

omit [DecidableEq κ] [DecidableEq τ] in
theorem Owned.take (h : Owned s) (hc : s.running c = some i) (hl : l ∈ pending (s.code i)) :
    Owned { s with owner := Function.update s.owner l (some i) } := by
  refine ⟨h.balanced, fun l' k hk => ?_⟩
  by_cases hll : l' = l
  · subst hll
    simp only [Function.update_self, Option.some.injEq] at hk
    exact hk ▸ ⟨⟨c, hc⟩, hl⟩
  · simp only [Function.update_of_ne hll] at hk
    exact h.owner l' k hk

omit [DecidableEq κ] [DecidableEq τ] in
theorem Owned.drop (h : Owned s) (l : Spin L B) :
    Owned { s with owner := Function.update s.owner l none } := by
  refine ⟨h.balanced, fun l' k hk => ?_⟩
  by_cases hll : l' = l
  · subst hll
    simp at hk
  · simp only [Function.update_of_ne hll] at hk
    exact h.owner l' k hk

theorem Owned.exec (h : Owned s) (hc : s.running c = some i)
    (hlook : ∀ b rest, s.code i = .look b :: rest → s.ready ≠ [] → ∀ l, s.owner l ≠ some i)
    (hs : Cores.exec s c i (s.code i) = some t) : Owned t := by
  have hb := h.balanced i
  have hp (l : Spin L B) (hl : s.owner l = some i) := (h.owner l i hl).2
  cases hcode : s.code i with
  | nil =>
    rw [hcode] at hs
    cases hs
  | cons instr rest =>
    rw [hcode] at hs hb
    simp only [hcode] at hp
    cases instr with
    | acquire l =>
      simp only [Cores.exec] at hs
      split at hs <;> cases hs
      refine (h.take hc (by rw [hcode]; exact hb.1)).goto hb.2 fun l' hl => ?_
      by_cases hll : l' = l
      · exact hll ▸ hb.1
      · simp only [Function.update_of_ne hll] at hl
        exact hp l' hl
    | release l =>
      cases hs
      refine (h.drop l).goto hb fun l' hl => ?_
      by_cases hll : l' = l
      · subst hll
        simp at hl
      · simp only [Function.update_of_ne hll] at hl
        exact (List.mem_cons.mp (hp l' hl)).resolve_left hll
    | test b =>
      simp only [Cores.exec] at hs
      split at hs <;> cases hs <;> exact Owned.goto ⟨h.balanced, h.owner⟩ hb hp
    | look b =>
      have hback : Balanced (.acquire (.inner b) :: .test b :: rest) := ⟨List.mem_cons_self, hb⟩
      have hpend (l : Spin L B) (hl : s.owner l = some i) :
          l ∈ pending (.acquire (.inner b) :: .test b :: rest) := List.mem_cons_of_mem _ (hp l hl)
      simp only [Cores.exec] at hs
      split at hs
      · cases hs
        exact h.goto hback hpend
      · rename_i j ready hr
        cases hs
        have hgo : Owned ({ s with ready := ready }.goto i (.acquire (.inner b) :: .test b :: rest)) :=
          Owned.goto ⟨h.balanced, h.owner⟩ hback hpend
        refine hgo.switch hc (hlook b rest hcode ?_) ⟨List.mem_cons_self, trivial⟩
        rw [hr]
        exact List.cons_ne_nil _ _
    | clear b =>
      cases hs
      exact Owned.goto ⟨h.balanced, h.owner⟩ hb hp
    | enqueue =>
      simp only [Cores.exec] at hs
      split at hs <;> cases hs <;> exact Owned.goto ⟨h.balanced, h.owner⟩ hb hp
    | recheck b =>
      simp only [Cores.exec] at hs
      split at hs
      · cases hs
        exact Owned.goto ⟨h.balanced, h.owner⟩ hb hp
      · split at hs <;> cases hs <;> exact Owned.goto ⟨h.balanced, h.owner⟩ hb hp

theorem Owned.step {a : Action κ L B} (h : Owned s) (hu : Uncontended s a)
    (hcall : ∀ c code, a = .call c code → Balanced code)
    (hs : Cores.step s a = some t) : Owned t := by
  cases a with
  | dispatch c =>
    simp only [Cores.step] at hs
    split at hs <;> cases hs
    rename_i hc hr
    refine ⟨h.balanced, fun l k hl => ?_⟩
    obtain ⟨⟨c',hc'⟩,hpend⟩ := h.owner l k hl
    have hcc : c' ≠ c := by
      rintro rfl
      rw [hc] at hc'
      cases hc'
    exact ⟨⟨c', by simpa only [Function.update_of_ne hcc] using hc'⟩, hpend⟩
  | exec c =>
    simp only [Cores.step] at hs
    split at hs
    · rename_i i hc
      exact h.exec hc (fun b rest hcode => hu i b rest hc hcode) hs
    · cases hs
  | call c code =>
    simp only [Cores.step] at hs
    split at hs
    · rename_i i hc
      split at hs <;> cases hs
      rename_i hnil
      refine h.goto (hcall c code rfl) fun l hl => ?_
      have hpend := (h.owner l i hl).2
      rw [hnil] at hpend
      cases hpend
    · cases hs
  | yield c =>
    simp only [Cores.step] at hs
    split at hs
    · rename_i i j ready hc hr
      split at hs <;> cases hs
      rename_i hnil
      refine Owned.switch (s := { s with ready := ready }) ⟨h.balanced, h.owner⟩ hc
        (fun l hl => ?_) trivial
      have hpend := (h.owner l i hl).2
      rw [hnil] at hpend
      cases hpend
    · cases hs

/-- The kernel's calls, and those in which no owner is switched out under contention. -/
def Disciplined (s : State κ τ SpinLock BlockingLock) (a : Action κ SpinLock BlockingLock) : Prop :=
  KernelCall s a ∧ Uncontended s a

theorem owned_invariant : ((machine κ τ SpinLock BlockingLock).under Disciplined).Invariant Owned where
  init := by
    rintro s ⟨ready,-,rfl⟩
    exact ⟨fun _ => trivial, fun l i hl => by cases hl⟩
  step := by
    rintro s t h ⟨a,⟨hk,hu⟩,hs⟩
    refine h.step hu (fun c code ha => ?_) hs
    subst ha
    obtain ⟨-,p,-,htrace⟩ := hk
    exact htrace.balanced

/-- When no owner of a spin lock meets contention on a blocking lock with a thread ready,
no descheduled thread owns a spin lock. -/
theorem none_descheduled {s : State κ τ SpinLock BlockingLock}
    (h : ((machine κ τ SpinLock BlockingLock).under Disciplined).Reachable s) :
    NoneDescheduled s :=
  (owned_invariant.reachable h).noneDescheduled ((placed_invariant Disciplined).reachable h)

/-! Two cores, three threads and a line of one character. -/

abbrev TwoCores := machine (Fin 2) (Fin 3) SpinLock BlockingLock

def kprintTrace : List (Instr SpinLock BlockingLock) :=
  [.acquire (.inner .say), .test .say, .acquire (.inner .putch), .test .putch,
    .acquire (.inner .putch), .clear .putch, .acquire (.inner .say), .clear .say]

theorem trace_kprint : Trace kprint kprintTrace :=
  .seq (.lock _) (.seq (.seq (.seq .stop (.seq (.lock _) (.unlock _))) .stop) (.unlock _))

/-- `udp_register_handler` on a free slot. -/
def registerTrace : List (Instr SpinLock BlockingLock) :=
  .acquire (.named .udp) :: kprintTrace ++ [.release (.named .udp)]

theorem trace_register : ∃ node, ∃ p ∈ kernelCalls node, Trace p registerTrace :=
  ⟨0, udpRegisterHandler, by simp [kernelCalls], .right (.guard (.right trace_kprint))⟩

/-- `arp_cache_lookup`. -/
def lookupTrace : List (Instr SpinLock BlockingLock) :=
  .acquire (.named .arpCache) :: (kprintTrace ++ (kprintTrace ++ (kprintTrace ++ []))) ++
    [.release (.named .arpCache)]

theorem trace_lookup : ∃ node, ∃ p ∈ kernelCalls node, Trace p lookupTrace :=
  ⟨0, arpCacheLookup, by simp [kernelCalls],
    .right (.guard (.seq trace_kprint (.seq trace_kprint (.seq trace_kprint .done))))⟩

/-- `chat_udp_handler`. -/
def chatTrace : List (Instr SpinLock BlockingLock) :=
  (.acquire (.named .chat) :: [] ++ [.release (.named .chat)]) ++
    (kprintTrace ++ (kprintTrace ++ (kprintTrace ++ [])))

theorem trace_chat : ∃ node, ∃ p ∈ kernelCalls node, Trace p chatTrace :=
  ⟨0, chatUdpHandler, by simp [kernelCalls],
    .right (.seq (.guard .done) (.seq trace_kprint (.seq trace_kprint (.seq trace_kprint .done))))⟩

/-- Thread 1 prints on core 1; thread 0 calls on core 0 and waits for the line. -/
def contendedRun (code : List (Instr SpinLock BlockingLock)) (n : Nat) :
    List (Action (Fin 2) SpinLock BlockingLock) :=
  [.dispatch 0, .dispatch 1, .call 1 registerTrace, .exec 1, .exec 1, .exec 1, .exec 1,
    .call 0 code] ++ List.replicate n (.exec 0)

/-- The ARP lookup is parked with the lock of the cache. -/
theorem lookup_parked_with_lock :
    ∃ s, (TwoCores.under KernelCall).Reachable s ∧ ¬NoneDescheduled s := by
  have hr : (TwoCores.under KernelCall).Reachable
      (TwoCores.run (start [0, 1, 2]) (contendedRun lookupTrace 7)) := by
    refine Machine.reachable_run (.init ⟨_, by decide, rfl⟩) ?_
    simp only [contendedRun, List.cons_append, List.nil_append, List.replicate, Machine.Allowed,
      KernelCall, true_and, and_true]
    exact ⟨trace_register, trace_lookup⟩
  refine ⟨_, hr, fun h => ?_⟩
  exact h 0 (.named .arpCache) (Or.inr ⟨.say, by decide +kernel⟩) (by decide +kernel)

/-- The chat handler, which prints after its lock, is parked without one. -/
theorem none_descheduled_chat :
    NoneDescheduled (TwoCores.run (start [0, 1, 2]) (contendedRun chatTrace 8)) ∧
      (TwoCores.run (start [0, 1, 2]) (contendedRun chatTrace 8)).waiting .say = [0] := by
  refine ⟨none_descheduled (Machine.reachable_run (.init ⟨_, by decide, rfl⟩) ?_),
    by decide +kernel⟩
  refine ⟨⟨trivial, trivial⟩, ⟨trivial, trivial⟩, ⟨trace_register, trivial⟩, ⟨trivial, ?_⟩,
    ⟨trivial, ?_⟩, ⟨trivial, ?_⟩, ⟨trivial, ?_⟩, ⟨trace_chat, trivial⟩, ⟨trivial, ?_⟩,
    ⟨trivial, ?_⟩, ⟨trivial, ?_⟩, ⟨trivial, ?_⟩, ⟨trivial, ?_⟩, ⟨trivial, ?look⟩, ⟨trivial, ?_⟩,
    ⟨trivial, ?_⟩, trivial⟩
  case look =>
    rintro i b rest ⟨⟩ ⟨⟩ - l
    cases l with
    | named l =>
      cases l with
      | middle node => exact fun h => by cases h
      | _ => decide +kernel
    | inner b => cases b <;> decide +kernel
  all_goals rintro i b rest ⟨⟩ ⟨⟩

end NetKernel.LockOwners
