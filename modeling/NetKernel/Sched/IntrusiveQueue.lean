import NetKernel.Lib.LinkedList
import NetKernel.Lib.Runs
import Mathlib.Data.Sum.Basic
import Mathlib.Data.Fintype.Sum

/-! `Queue<T, LockType>`: a singly linked queue through the `next` field of its elements,
and the walk of `notify_all` along a chain that `remove_all` has returned. -/
namespace NetKernel.Queues
open LinkedList Runs Function

/-- `first`, `last` and `size_count`; null is 0. -/
structure Queue where
  first : Nat
  last : Nat
  sizeCount : UInt64
deriving DecidableEq, Repr

def empty : Queue := ⟨0, 0, 0⟩

/-- `add(t)`: the queue and the `next` fields after it. -/
def add (q : Queue) (next : Nat → Nat) (t : Nat) : Queue × (Nat → Nat) :=
  if q.first = 0 then (⟨t, t, q.sizeCount+1⟩, update next t 0)
  else (⟨q.first, t, q.sizeCount+1⟩, update (update next t 0) q.last t)

/-- `remove()`: the pointer it returns and the queue after it. -/
def remove (q : Queue) (next : Nat → Nat) : Nat × Queue :=
  if q.first = 0 then (0, q)
  else
    let it := q.first
    let first := next it
    (it, ⟨first, if first = 0 then 0 else q.last, q.sizeCount-1⟩)

def removeAll (q : Queue) : Nat × Queue := (q.first, ⟨0, 0, 0⟩)

def size (q : Queue) : UInt64 := q.sizeCount

def peek (q : Queue) : Nat := q.first

/-- The elements that a reader of a chain meets, at most `fuel` of them. -/
def follow (next : Nat → Nat) : Nat → Nat → List Nat
  | 0, _ => []
  | fuel+1, p => if p = 0 then [] else p :: follow next fuel (next p)

/-- The queues, the `next` fields, and the `p` of `notify_all` on each core. `added` and
`out` are what has been added to a queue and what has come out of it, in order; `taken` is
what `notify_all` found on the chains it got, `moved` what it has added elsewhere. -/
structure State (κ ω : Type*) where
  queue : κ → Queue
  next : Nat → Nat
  p : ω → Nat
  added : κ → List Nat
  out : κ → List Nat
  taken : ω → List Nat
  moved : ω → List Nat

/-- `notifyAll` is its `remove_all`, `walk` one round of its loop; `notify_one` is a
`remove` and an `add`. -/
inductive Action (κ ω : Type*) where
  | add (q : κ) (t : Nat)
  | remove (q : κ)
  | removeAll (q : κ)
  | notifyAll (c : ω) (q : κ)
  | walk (c : ω) (q : κ)

variable {κ ω : Type*} [DecidableEq κ] [DecidableEq ω]

def State.addTo (s : State κ ω) (q : κ) (t : Nat) : State κ ω :=
  let r := add (s.queue q) s.next t
  { s with queue := update s.queue q r.1, next := r.2,
           added := update s.added q (s.added q ++ [t]) }

def State.removeFrom (s : State κ ω) (q : κ) : State κ ω :=
  let r := remove (s.queue q) s.next
  { s with queue := update s.queue q r.2,
           out := update s.out q (s.out q ++ if r.1 = 0 then [] else [r.1]) }

/-- What a reader finds on the chain that `remove_all` returns. -/
def State.chainOf (s : State κ ω) (q : κ) : List Nat :=
  follow s.next (s.added q).length (removeAll (s.queue q)).1

def State.removeAllFrom (s : State κ ω) (q : κ) : State κ ω :=
  { s with queue := update s.queue q (removeAll (s.queue q)).2,
           out := update s.out q (s.out q ++ s.chainOf q) }

def State.notifyAll (s : State κ ω) (c : ω) (q : κ) : State κ ω :=
  { s.removeAllFrom q with p := update s.p c (removeAll (s.queue q)).1,
                           taken := update s.taken c (s.taken c ++ s.chainOf q) }

/-- `next = p->next; add(p); p = next`. -/
def State.walk (s : State κ ω) (c : ω) (q : κ) : State κ ω :=
  { s.addTo q (s.p c) with p := update s.p c (s.next (s.p c)),
                           moved := update s.moved c (s.moved c ++ [s.p c]) }

def step (s : State κ ω) : Action κ ω → Option (State κ ω)
  | .add q t => some (s.addTo q t)
  | .remove q => some (s.removeFrom q)
  | .removeAll q => some (s.removeAllFrom q)
  | .notifyAll c q => if s.p c = 0 then some (s.notifyAll c q) else none
  | .walk c q => if s.p c = 0 then none else some (s.walk c q)

def start : State κ ω where
  queue _ := empty
  next _ := 0
  p _ := 0
  added _ := []
  out _ := []
  taken _ := []
  moved _ := []

def machine (κ ω : Type*) [DecidableEq κ] [DecidableEq ω] : Machine (State κ ω) (Action κ ω) where
  Init s := ∃ next, s = { start with next := next }
  step := step

def left {ι : Type*} (all gone : ι → List Nat) (i : ι) : List Nat := (all i).drop (gone i).length

def waiting (s : State κ ω) : κ → List Nat := left s.added s.out

/-- The elements that `notify_all` has still to add. -/
def onWay (s : State κ ω) : ω → List Nat := left s.taken s.moved

/-- The lists threaded through `next`: the queues, and the chains that are walked. -/
def lines (s : State κ ω) : κ ⊕ ω → List Nat := Sum.elim (waiting s) (onWay s)

def heads (s : State κ ω) : κ ⊕ ω → Nat := Sum.elim (Queue.first ∘ s.queue) s.p

/-- What the callers of `add` owe it: an element, and one in no queue. -/
def Proper (s : State κ ω) : Action κ ω → Prop
  | .add _ t => t ≠ 0 ∧ (∀ q, t ∉ waiting s q) ∧ ∀ c, t ∉ onWay s c
  | _ => True

instance [Fintype κ] [Fintype ω] (s : State κ ω) (a : Action κ ω) : Decidable (Proper s a) :=
  match a with
  | .add _ t => inferInstanceAs (Decidable (t ≠ 0 ∧ (∀ q, t ∉ waiting s q) ∧ ∀ c, t ∉ onWay s c))
  | .remove _ | .removeAll _ | .notifyAll _ _ | .walk _ _ => inferInstanceAs (Decidable True)

/-- `last` and `size_count` for the elements of a queue. -/
structure Fits (q : Queue) (l : List Nat) : Prop where
  last : l.getLastD 0 = q.last
  count : q.sizeCount = UInt64.ofNat l.length

structure Threaded (s : State κ ω) : Prop where
  chains : Chains 0 s.next (heads s) (lines s)
  fits : ∀ q, Fits (s.queue q) (waiting s q)
  added : ∀ q, s.added q = s.out q ++ waiting s q
  taken : ∀ c, s.taken c = s.moved c ++ onWay s c

variable {s t : State κ ω} {q : κ} {c : ω}

theorem follow_chain {next : Nat → Nat} {p fuel : Nat} {l : List Nat} (h : Chain 0 next p l)
    (hf : l.length ≤ fuel) : follow next fuel p = l := by
  induction l generalizing p fuel with
  | nil =>
    obtain rfl : p = 0 := h
    cases fuel with
    | zero => rfl
    | succ fuel => rfl
  | cons x xs ih =>
    obtain ⟨rfl,hx,hxs⟩ := h
    cases fuel with
    | zero => exact absurd hf (Nat.not_succ_le_zero _)
    | succ fuel => rw [follow, if_neg hx, ih hxs (Nat.le_of_succ_le_succ hf)]

/-! One list of a family after an update of what has come, or of what is gone. -/
section Left
variable {ι : Type*} [DecidableEq ι] {all gone : ι → List Nat} {i : ι}

theorem left_push (h : ∀ k, all k = gone k ++ left all gone k) (l : List Nat) :
    (∀ k, update all i (all i ++ l) k = gone k ++ left (update all i (all i ++ l)) gone k) ∧
      left (update all i (all i ++ l)) gone = update (left all gone) i (left all gone i ++ l) := by
  have hleft : left (update all i (all i ++ l)) gone =
      update (left all gone) i (left all gone i ++ l) := by
    funext k
    by_cases hk : k = i
    · subst hk
      rw [update_self, left, update_self, h k, List.append_assoc, List.drop_left]
    · rw [update_of_ne hk, left, update_of_ne hk, left]
  refine ⟨fun k => ?_, hleft⟩
  rw [hleft]
  by_cases hk : k = i
  · subst hk
    rw [update_self, update_self, ← List.append_assoc, ← h k]
  · rw [update_of_ne hk, update_of_ne hk, ← h k]

theorem left_take (h : ∀ k, all k = gone k ++ left all gone k) {xs ys : List Nat}
    (hi : left all gone i = xs ++ ys) :
    (∀ k, all k = update gone i (gone i ++ xs) k ++ left all (update gone i (gone i ++ xs)) k) ∧
      left all (update gone i (gone i ++ xs)) = update (left all gone) i ys := by
  have hleft : left all (update gone i (gone i ++ xs)) = update (left all gone) i ys := by
    funext k
    by_cases hk : k = i
    · subst hk
      rw [update_self, left, update_self, h k, hi, ← List.append_assoc, List.drop_left]
    · rw [update_of_ne hk, left, update_of_ne hk, left]
  refine ⟨fun k => ?_, hleft⟩
  rw [hleft]
  by_cases hk : k = i
  · subst hk
    rw [update_self, update_self, List.append_assoc, ← hi, ← h k]
  · rw [update_of_ne hk, update_of_ne hk, ← h k]

end Left

/-! One queue, or one walk, changes the family of chains at one place. -/

theorem heads_queue (queue : κ → Queue) (p : ω → Nat) (q : κ) (v : Queue) :
    Sum.elim (Queue.first ∘ update queue q v) p =
      update (Sum.elim (Queue.first ∘ queue) p) (.inl q) v.first := by
  rw [comp_update, Sum.update_elim_inl]

theorem fits_update {queue : κ → Queue} {l : κ → List Nat} (h : ∀ k, Fits (queue k) (l k))
    {v : Queue} {m : List Nat} (hv : Fits v m) (k : κ) :
    Fits (update queue q v k) (update l q m k) := by
  by_cases hk : k = q
  · subst hk
    rwa [update_self, update_self]
  · rw [update_of_ne hk, update_of_ne hk]
    exact h k

theorem add_eq (q : Queue) (next : Nat → Nat) (x : Nat) :
    add q next x = (⟨if q.first = 0 then x else q.first, x, q.sizeCount+1⟩,
      if q.first = 0 then update next x 0 else update (update next x 0) q.last x) := by
  rw [add]
  split <;> rfl

theorem Threaded.addTo {x : Nat} (h : Threaded s) (q : κ) (hx : x ≠ 0)
    (hfree : ∀ i, x ∉ lines s i) : Threaded (s.addTo q x) := by
  obtain ⟨hadded,hleft⟩ := left_push (i := q) h.added [x]
  have hwaiting : waiting (s.addTo q x) = update (waiting s) q (waiting s q ++ [x]) := hleft
  have hfits : Fits (add (s.queue q) s.next x).1 (waiting s q ++ [x]) := by
    rw [add_eq]
    refine ⟨List.getLastD_concat .., ?_⟩
    rw [List.length_append, List.length_singleton, UInt64.ofNat_add, ← (h.fits q).count]
    rfl
  refine ⟨?_, fun k => ?_, hadded, h.taken⟩
  · have hc := h.chains.append (i := Sum.inl q) hx hfree (h.fits q).last
    change Chains 0 (add (s.queue q) s.next x).2
      (Sum.elim (Queue.first ∘ update s.queue q (add (s.queue q) s.next x).1) s.p)
      (Sum.elim (waiting (s.addTo q x)) (onWay s))
    rw [hwaiting, heads_queue, ← Sum.update_elim_inl, add_eq]
    exact hc
  · rw [hwaiting]
    exact fits_update h.fits hfits k

theorem remove_eq {q : Queue} (next : Nat → Nat) (h : q.first ≠ 0) : remove q next =
    (q.first, ⟨next q.first, if next q.first = 0 then 0 else q.last, q.sizeCount-1⟩) := by
  rw [remove, if_neg h]

theorem Fits.remove {q : Queue} {next : Nat → Nat} {xs : List Nat} (h : Fits q (q.first :: xs))
    (hc : Chain 0 next (next q.first) xs) (hq : q.first ≠ 0) : Fits (remove q next).2 xs := by
  rw [remove_eq next hq]
  constructor
  · have hlast := h.last
    cases xs with
    | nil => rw [if_pos (hc.null_iff.mpr rfl), List.getLastD_nil]
    | cons y ys =>
      have hne : next q.first ≠ 0 := fun he => absurd (hc.null_iff.mp he) (List.cons_ne_nil _ _)
      rw [if_neg hne, ← hlast, List.getLastD_cons, List.getLastD_cons, List.getLastD_cons]
  · rw [h.count, List.length_cons, UInt64.ofNat_add]
    exact UInt64.add_sub_cancel _ _

omit [DecidableEq ω] in
theorem removeFrom_null (hq : (s.queue q).first = 0) : s.removeFrom q = s := by
  simp only [State.removeFrom, remove, if_pos hq, update_eq_self, List.append_nil, if_true]

omit [DecidableEq ω] in
theorem Threaded.outFirst {xs : List Nat} (h : Threaded s) (hq : (s.queue q).first ≠ 0)
    (hxs : waiting s q = (s.queue q).first :: xs) :
    (∀ k, s.added k = (s.removeFrom q).out k ++ waiting (s.removeFrom q) k) ∧
      waiting (s.removeFrom q) = update (waiting s) q xs := by
  have hfirst : waiting s q = [(s.queue q).first] ++ xs := hxs
  have hout : (s.removeFrom q).out = update s.out q (s.out q ++ [(s.queue q).first]) := by
    simp only [State.removeFrom, remove_eq s.next hq, if_neg hq]
  rw [waiting, hout]
  exact left_take h.added hfirst

theorem Threaded.removeFrom (h : Threaded s) (q : κ) : Threaded (s.removeFrom q) := by
  by_cases hq : (s.queue q).first = 0
  · rw [removeFrom_null hq]
    exact h
  · obtain ⟨xs,hxs,hc⟩ := h.chains.pop (i := Sum.inl q) hq
    obtain ⟨hadded,hwaiting⟩ := h.outFirst hq hxs
    have hrest := hc.chain (Sum.inl q)
    rw [update_self, update_self] at hrest
    refine ⟨?_, fun k => ?_, hadded, h.taken⟩
    · change Chains 0 s.next
        (Sum.elim (Queue.first ∘ update s.queue q (remove (s.queue q) s.next).2) s.p)
        (Sum.elim (waiting (s.removeFrom q)) (onWay s))
      rw [hwaiting, heads_queue, ← Sum.update_elim_inl, remove_eq s.next hq]
      exact hc
    · rw [hwaiting]
      exact fits_update h.fits (Fits.remove (hxs ▸ h.fits q) hrest hq) k

omit [DecidableEq κ] [DecidableEq ω] in
theorem Threaded.chainOf (h : Threaded s) (q : κ) : s.chainOf q = waiting s q := by
  refine follow_chain (h.chains.chain (Sum.inl q)) ?_
  have := congrArg List.length (h.added q)
  rw [List.length_append] at this
  change (waiting s q).length ≤ (s.added q).length
  omega

omit [DecidableEq ω] in
theorem Threaded.outAll (h : Threaded s) (q : κ) :
    (∀ k, s.added k = (s.removeAllFrom q).out k ++ waiting (s.removeAllFrom q) k) ∧
      waiting (s.removeAllFrom q) = update (waiting s) q [] := by
  have hall : left s.added s.out q = s.chainOf q ++ [] := by
    rw [h.chainOf, List.append_nil]
    rfl
  exact left_take h.added hall

theorem Threaded.removeAllFrom (h : Threaded s) (q : κ) : Threaded (s.removeAllFrom q) := by
  obtain ⟨hadded,hwaiting⟩ := h.outAll q
  refine ⟨?_, fun k => ?_, hadded, h.taken⟩
  · change Chains 0 s.next (Sum.elim (Queue.first ∘ update s.queue q empty) s.p)
      (Sum.elim (waiting (s.removeAllFrom q)) (onWay s))
    rw [hwaiting, heads_queue, ← Sum.update_elim_inl]
    exact h.chains.clear
  · rw [hwaiting]
    exact fits_update h.fits ⟨rfl, rfl⟩ k

theorem Threaded.notifyAll (h : Threaded s) (q : κ) (hc : s.p c = 0) :
    Threaded (s.notifyAll c q) := by
  obtain ⟨hadded,hwaiting⟩ := h.outAll q
  obtain ⟨htaken,hleft⟩ := left_push (i := c) h.taken (s.chainOf q)
  have hempty : left s.taken s.moved c = [] :=
    (h.chains.chain (Sum.inr c)).null_iff.mp hc
  have hway : onWay (s.notifyAll c q) = update (onWay s) c (waiting s q) := by
    rw [hempty, List.nil_append] at hleft
    rw [← h.chainOf]
    exact hleft
  refine ⟨?_, fun k => ?_, hadded, htaken⟩
  · change Chains 0 s.next
      (Sum.elim (Queue.first ∘ update s.queue q empty) (update s.p c (s.queue q).first))
      (Sum.elim (waiting (s.removeAllFrom q)) (onWay (s.notifyAll c q)))
    rw [hwaiting, hway, ← Sum.update_elim_inr, heads_queue, ← Sum.update_elim_inr,
      ← Sum.update_elim_inl]
    exact h.chains.move
  · change Fits (update s.queue q empty k) (waiting (s.removeAllFrom q) k)
    rw [hwaiting]
    exact fits_update h.fits ⟨rfl, rfl⟩ k

/-- `p` moves on, before the element behind it is added. -/
def State.passBy (s : State κ ω) (c : ω) : State κ ω :=
  { s with p := update s.p c (s.next (s.p c)), moved := update s.moved c (s.moved c ++ [s.p c]) }

theorem Threaded.passBy (h : Threaded s) (hc : s.p c ≠ 0) :
    Threaded (s.passBy c) ∧ ∀ i, s.p c ∉ lines (s.passBy c) i := by
  obtain ⟨xs,hxs,hch⟩ := h.chains.pop (i := Sum.inr c) hc
  have hfirst : onWay s c = [s.p c] ++ xs := hxs
  obtain ⟨htaken,hleft⟩ := left_take h.taken hfirst
  have hway : onWay (s.passBy c) = update (onWay s) c xs := hleft
  have hlines : lines (s.passBy c) = update (lines s) (.inr c) xs := by
    rw [lines, lines, Sum.update_elim_inr, ← hway]
    rfl
  have hmem : s.p c ∈ lines s (.inr c) := hxs ▸ List.mem_cons_self
  constructor
  · refine ⟨?_, h.fits, h.added, htaken⟩
    rw [hlines]
    change Chains 0 s.next (Sum.elim (Queue.first ∘ s.queue) (update s.p c (s.next (s.p c)))) _
    rw [← Sum.update_elim_inr]
    exact hch
  · intro i hi
    rw [hlines] at hi
    by_cases hic : i = .inr c
    · subst hic
      rw [update_self] at hi
      exact (List.nodup_cons.mp (hxs ▸ h.chains.nodup (Sum.inr c))).1 hi
    · rw [update_of_ne hic] at hi
      exact hic (h.chains.apart _ _ _ hi hmem)

theorem Threaded.walk (h : Threaded s) (q : κ) (hc : s.p c ≠ 0) : Threaded (s.walk c q) := by
  obtain ⟨hpass,hfree⟩ := h.passBy hc
  exact hpass.addTo q hc hfree

theorem Threaded.step {a : Action κ ω} (h : Threaded s) (ha : Proper s a)
    (hs : step s a = some t) : Threaded t := by
  cases a with
  | add q x =>
    cases hs
    refine h.addTo q ha.1 ?_
    rintro (k | c)
    · exact ha.2.1 k
    · exact ha.2.2 c
  | remove q =>
    cases hs
    exact h.removeFrom q
  | removeAll q =>
    cases hs
    exact h.removeAllFrom q
  | notifyAll c q =>
    obtain ⟨hc,he⟩ := Option.ite_none_right_eq_some.mp hs
    cases he
    exact h.notifyAll q hc
  | walk c q =>
    obtain ⟨hc,he⟩ := Option.ite_none_left_eq_some.mp hs
    cases he
    exact h.walk q hc

theorem threaded (h : ((machine κ ω).under Proper).Reachable s) : Threaded s := by
  refine System.Invariant.reachable (P := Threaded) ⟨fun s hs => ?_, fun s t hi hs => ?_⟩ h
  · obtain ⟨next,rfl⟩ := hs
    refine ⟨⟨?_, ?_, ?_⟩, fun q => ⟨rfl, rfl⟩, fun q => rfl, fun c => rfl⟩
    · rintro (q | c)
      · exact rfl
      · exact rfl
    · rintro (q | c)
      · exact List.nodup_nil
      · exact List.nodup_nil
    · rintro (q | c) j x hx
      · cases hx
      · cases hx
  · obtain ⟨a,ha,hs⟩ := hs
    exact hi.step ha hs

/-! What a queue is to its callers. -/

/-- The elements come out in the order they were added, each once; those that have not are
a chain from `first` to `last`. `remove` takes its head, and `remove_all` all of it. -/
structure Fifo (s : State κ ω) (q : κ) : Prop where
  order : s.added q = s.out q ++ waiting s q
  once : (waiting s q).Nodup ∧ ∀ q', q' ≠ q → ∀ x ∈ waiting s q, x ∉ waiting s q'
  chain : Chain 0 s.next (s.queue q).first (waiting s q)
  ends : waiting s q = [] ∧ (s.queue q).first = 0 ∧ (s.queue q).last = 0 ∨
    (waiting s q).getLast? = some (s.queue q).last ∧ s.next (s.queue q).last = 0
  head : (remove (s.queue q) s.next).1 = (waiting s q).headD 0
  null_iff : (remove (s.queue q) s.next).1 = 0 ↔ waiting s q = []
  tail : waiting (s.removeFrom q) q = (waiting s q).tail
  whole : Chain 0 s.next (removeAll (s.queue q)).1 (waiting s q)
  emptied : (removeAll (s.queue q)).2 = empty ∧ waiting (s.removeAllFrom q) q = []
  sized : size (s.queue q) = UInt64.ofNat (waiting s q).length
  peeked : peek (s.queue q) = (waiting s q).headD 0

theorem remove_fst (q : Queue) (next : Nat → Nat) : (remove q next).1 = q.first := by
  rw [remove]
  split
  · exact (‹q.first = 0›).symm
  · rfl

omit [DecidableEq κ] [DecidableEq ω] in
theorem Threaded.first_eq (h : Threaded s) (q : κ) :
    (s.queue q).first = (waiting s q).headD 0 := by
  have hc : Chain 0 s.next (s.queue q).first (waiting s q) := h.chains.chain (Sum.inl q)
  cases hw : waiting s q with
  | nil =>
    rw [hw] at hc
    exact hc
  | cons x xs =>
    rw [hw] at hc
    exact hc.1

omit [DecidableEq κ] [DecidableEq ω] in
theorem Threaded.ends (h : Threaded s) (q : κ) :
    waiting s q = [] ∧ (s.queue q).first = 0 ∧ (s.queue q).last = 0 ∨
      (waiting s q).getLast? = some (s.queue q).last ∧ s.next (s.queue q).last = 0 := by
  have hc : Chain 0 s.next (s.queue q).first (waiting s q) := h.chains.chain (Sum.inl q)
  by_cases hw : waiting s q = []
  · refine Or.inl ⟨hw, hc.null_iff.mpr hw, ?_⟩
    rw [← (h.fits q).last, hw, List.getLastD_nil]
  · have hlast : (waiting s q).getLast? = some (s.queue q).last := by
      rw [← (h.fits q).last, List.getLastD_eq_getLast?, List.getLast?_eq_some_getLast hw,
        Option.getD_some]
    exact Or.inr ⟨hlast, hc.next_last hlast⟩

omit [DecidableEq ω] in
theorem Threaded.tail (h : Threaded s) (q : κ) :
    waiting (s.removeFrom q) q = (waiting s q).tail := by
  have hc : Chain 0 s.next (s.queue q).first (waiting s q) := h.chains.chain (Sum.inl q)
  by_cases hq : (s.queue q).first = 0
  · rw [removeFrom_null hq, hc.null_iff.mp hq, List.tail_nil]
  · obtain ⟨xs,hxs,-⟩ := hc.pop hq
    rw [(h.outFirst hq hxs).2, update_self, hxs, List.tail_cons]

omit [DecidableEq ω] in
theorem Threaded.fifo (h : Threaded s) (q : κ) : Fifo s q := by
  have hchain : Chain 0 s.next (s.queue q).first (waiting s q) := h.chains.chain (Sum.inl q)
  constructor
  · exact h.added q
  · refine ⟨h.chains.nodup (Sum.inl q), fun q' hq x hx hx' => hq ?_⟩
    exact Sum.inl.inj (h.chains.apart (.inl q') (.inl q) x hx' hx)
  · exact hchain
  · exact h.ends q
  · rw [remove_fst]
    exact h.first_eq q
  · rw [remove_fst]
    exact hchain.null_iff
  · exact h.tail q
  · exact hchain
  · exact ⟨rfl, by rw [(h.outAll q).2, update_self]⟩
  · exact (h.fits q).count
  · exact h.first_eq q

/-- Every queue keeps the order of its elements, and `notify_all` adds those of the chain it
got to another queue in order, with the rest of the chain intact. -/
theorem queue_fifo (h : ((machine κ ω).under Proper).Reachable s) : (∀ q, Fifo s q) ∧
    ∀ c, s.taken c = s.moved c ++ onWay s c ∧ Chain 0 s.next (s.p c) (onWay s c) := by
  have ht := threaded h
  exact ⟨ht.fifo, fun c => ⟨ht.taken c, ht.chains.chain (Sum.inr c)⟩⟩

/-- Two waiters, woken while a ready element comes out and waits again. -/
def wakeTwo : List (Action Bool Unit) :=
  [.add true 16, .add false 32, .add false 48, .notifyAll () false, .walk () true, .remove true,
    .add false 16, .walk () true, .remove true]

theorem queue_fifo_wakeTwo :
    let s := (machine Bool Unit).run start wakeTwo
    (∀ q, Fifo s q) ∧
      ∀ c, s.taken c = s.moved c ++ onWay s c ∧ Chain 0 s.next (s.p c) (onWay s c) :=
  queue_fifo (Machine.reachable_run (.init ⟨fun _ => 0, rfl⟩) (by decide))

end NetKernel.Queues
