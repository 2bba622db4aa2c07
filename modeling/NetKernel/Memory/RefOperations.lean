import NetKernel.Lib.Runs
import NetKernel.Lib.Tally

/-! `StrongRef` and `WeakRef`: variables of threads that point to a `Middle`, which counts
them. The locked section of each `Middle` function is one step; what it has decided to
delete is deleted in steps of its own. -/
namespace NetKernel.SharedRefs
open Function Runs

inductive Kind where
  | strong
  | weak
deriving DecidableEq, Repr

/-- `impl::Middle`, without its lock; `ptr` is null or the number of an object. -/
structure Middle where
  ptr : Option Nat
  strongCount : UInt64
  weakCount : UInt64
deriving DecidableEq, Repr

/-- `Middle(T *ptr)`. -/
def Middle.new (ptr : Nat) : Middle := ⟨some ptr, 1, 0⟩

/-! The locked sections. An `add` gives the `Middle` back or null, as the flag says. A
`remove` gives `del_ptr` and `delete_m`; it is none where an assertion fails. -/

def Middle.addStrong (m : Middle) : Middle × Bool :=
  if 0 < m.strongCount then ({ m with strongCount := m.strongCount+1 }, true) else (m, false)

def Middle.addWeak (m : Middle) : Middle × Bool :=
  if m.ptr = none then (m, false) else ({ m with weakCount := m.weakCount+1 }, true)

def Middle.removeStrong (m : Middle) : Option (Middle × Option Nat × Bool) :=
  if 0 < m.strongCount then
    let count := m.strongCount-1
    if count = 0 then some (⟨none, count, m.weakCount⟩, m.ptr, m.weakCount == 0)
    else some (⟨m.ptr, count, m.weakCount⟩, none, false)
  else none

/-- `remove_weak`; no caller uses what it returns. -/
def Middle.removeWeak (m : Middle) : Option (Middle × Option Nat × Bool) :=
  if 0 < m.weakCount then
    let count := m.weakCount-1
    some (⟨m.ptr, m.strongCount, count⟩, none, count == 0 && m.strongCount == 0)
  else none

def Middle.add (m : Middle) : Kind → Middle × Bool
  | .strong => m.addStrong
  | .weak => m.addWeak

def Middle.remove (m : Middle) : Kind → Option (Middle × Option Nat × Bool)
  | .strong => m.removeStrong
  | .weak => m.removeWeak

/-- The address of a variable: an aligned word of memory. -/
abbrev Var := Fin (2^61)

/-- A variable, and its `middle`: null or the number of a `Middle`. -/
structure Ref where
  kind : Kind
  middle : Option Nat
deriving DecidableEq, Repr

/-- How an operation ends: `middle = nullptr`, `middle = add_*(source.middle)`, or the end of
the variable. -/
inductive Ending where
  | null
  | copy (source : Var)
  | gone
deriving DecidableEq

/-- Where a thread is. `deleting` comes after the section of a `remove`, `ending` after its
last deletion. -/
inductive Pc where
  | idle
  | removing (v : Var) (k : Kind) (rest : Ending)
  | deleting (v : Var) (k : Kind) (delPtr deleteM : Option Nat) (rest : Ending)
  | ending (v : Var) (k : Kind) (rest : Ending)
deriving DecidableEq

/-- What a thread can begin, on the variable `v`: `StrongRef(new T)`, `StrongRef()`, a
construction from a variable of either kind, the assignments, the destructor. -/
inductive Op where
  | make (k : Kind) (v : Var)
  | makeNull (k : Kind) (v : Var)
  | construct (k : Kind) (v source : Var)
  | assignNull (v : Var)
  | assign (v source : Var)
  | destroy (v : Var)
deriving DecidableEq

/-- An object and its `Middle` have the number that counts the objects made. `wrapped`,
`deleted` and `freed` are the `Middle`s made, the objects and the `Middle`s deleted. -/
structure State (τ : Type*) where
  refs : Var → Option Ref
  middles : Nat → Option Middle
  pc : τ → Pc
  made : Nat
  wrapped : List Nat
  deleted : List Nat
  freed : List Nat

inductive Action (τ : Type*) where
  | start (t : τ) (op : Op)
  | go (t : τ)

section Steps
variable {τ : Type*} [DecidableEq τ]

/-- `StrongRef(ptr)` makes a `Middle`, `WeakRef(ptr)` deletes the object. -/
def State.make (s : State τ) (v : Var) : Kind → State τ
  | .strong => { s with refs := update s.refs v (some ⟨.strong, some s.made⟩),
                        middles := update s.middles s.made (some (Middle.new s.made)),
                        made := s.made+1, wrapped := s.wrapped ++ [s.made] }
  | .weak => { s with refs := update s.refs v (some ⟨.weak, none⟩), made := s.made+1,
                      deleted := s.deleted ++ [s.made] }

def State.goto (s : State τ) (t : τ) (p : Pc) : State τ := { s with pc := update s.pc t p }

/-- An operation, up to its first section. An assignment compares the two pointers. -/
def State.start (s : State τ) (t : τ) : Op → Option (State τ)
  | .make k v => some (s.make v k)
  | .makeNull k v => some { s with refs := update s.refs v (some ⟨k, none⟩) }
  | .construct k v source => some (s.goto t (.ending v k (.copy source)))
  | .assignNull v => (s.refs v).map fun r => s.goto t (.removing v r.kind .null)
  | .assign v source =>
    match s.refs v, s.refs source with
    | some r, some r' =>
      if r.middle = r'.middle then some s else some (s.goto t (.removing v r.kind (.copy source)))
    | _, _ => none
  | .destroy v => (s.refs v).map fun r => s.goto t (.removing v r.kind .gone)

/-- `remove_strong(middle)` or `remove_weak(middle)`, up to the end of its section. -/
def State.remove (s : State τ) (t : τ) (v : Var) (k : Kind) (rest : Ending) : Option (State τ) :=
  match (s.refs v).bind Ref.middle with
  | none => some (s.goto t (.ending v k rest))
  | some m =>
    match (s.middles m).bind (Middle.remove · k) with
    | none => none
    | some (middle, delPtr, deleteM) =>
      some { s.goto t (.deleting v k delPtr (if deleteM then some m else none) rest) with
        middles := update s.middles m (some middle) }

/-- `delete del_ptr`, then `delete m`. -/
def State.delete (s : State τ) (t : τ) (v : Var) (k : Kind) (rest : Ending) :
    Option Nat → Option Nat → Option (State τ)
  | some object, deleteM =>
    some { s.goto t (.deleting v k none deleteM rest) with deleted := s.deleted ++ [object] }
  | none, some m =>
    if (s.middles m).isSome then
      some { s.goto t (.ending v k rest) with
        middles := update s.middles m none, freed := s.freed ++ [m] }
    else none
  | none, none => some (s.goto t (.ending v k rest))

def State.finish (s : State τ) (t : τ) (v : Var) (r : Option Ref) : State τ :=
  { s.goto t .idle with refs := update s.refs v r }

def State.ending (s : State τ) (t : τ) (v : Var) (k : Kind) : Ending → Option (State τ)
  | .null => some (s.finish t v (some ⟨k, none⟩))
  | .gone => some (s.finish t v none)
  | .copy source =>
    match (s.refs source).bind Ref.middle with
    | none => some (s.finish t v (some ⟨k, none⟩))
    | some m =>
      match s.middles m with
      | none => none
      | some middle =>
        let (middle, added) := middle.add k
        some { s.finish t v (some ⟨k, if added then some m else none⟩) with
          middles := update s.middles m (some middle) }

/-- `none` is a thread that has nothing to do, a failed assertion or an access to a `Middle`
that is gone. -/
def step (s : State τ) : Action τ → Option (State τ)
  | .start t op => if s.pc t = .idle then s.start t op else none
  | .go t =>
    match s.pc t with
    | .idle => none
    | .removing v k rest => s.remove t v k rest
    | .deleting v k delPtr deleteM rest => s.delete t v k rest delPtr deleteM
    | .ending v k rest => s.ending t v k rest

end Steps

def start (τ : Type*) : State τ where
  refs _ := none
  middles _ := none
  pc _ := .idle
  made := 0
  wrapped := []
  deleted := []
  freed := []

def machine (τ : Type*) [DecidableEq τ] : Machine (State τ) (Action τ) where
  Init s := s = start τ
  step := step

/-! What the threads owe: a variable is used by one of them at a time, and only between its
construction and its end. -/

def Ending.source : Ending → Option Var
  | .copy source => some source
  | _ => none

def Pc.target : Pc → Option Var
  | .idle => none
  | .removing v _ _ | .deleting v _ _ _ _ | .ending v _ _ => some v

def Pc.source : Pc → Option Var
  | .idle => none
  | .removing _ _ rest | .deleting _ _ _ _ rest | .ending _ _ rest => rest.source

def Pc.Uses (p : Pc) (v : Var) : Prop := p.target = some v ∨ p.source = some v

instance (p : Pc) (v : Var) : Decidable (p.Uses v) :=
  inferInstanceAs (Decidable (p.target = some v ∨ p.source = some v))

def Op.vars : Op → List Var
  | .make _ v | .makeNull _ v | .assignNull v | .destroy v => [v]
  | .construct _ v source | .assign v source => [v, source]

variable {τ : Type*}

/-- A constructor is for a variable that is not there, all else for those that are. -/
def Op.Live (s : State τ) : Op → Prop
  | .make _ v | .makeNull _ v => s.refs v = none
  | .construct _ v source => s.refs v = none ∧ (s.refs source).isSome
  | .assignNull v | .destroy v => (s.refs v).isSome
  | .assign v source => (s.refs v).isSome ∧ (s.refs source).isSome

instance (s : State τ) (op : Op) : Decidable (op.Live s) :=
  match op with
  | .make _ v | .makeNull _ v => inferInstanceAs (Decidable (s.refs v = none))
  | .construct _ v source => inferInstanceAs (Decidable (s.refs v = none ∧ (s.refs source).isSome))
  | .assignNull v | .destroy v => inferInstanceAs (Decidable ((s.refs v).isSome = true))
  | .assign v source =>
    inferInstanceAs (Decidable ((s.refs v).isSome ∧ (s.refs source).isSome))

def Proper (s : State τ) : Action τ → Prop
  | .start _ op => op.Live s ∧ ∀ v ∈ op.vars, ∀ t, ¬(s.pc t).Uses v
  | .go _ => True

instance [Fintype τ] (s : State τ) (a : Action τ) : Decidable (Proper s a) :=
  match a with
  | .start _ op =>
    have : Decidable (∀ v ∈ op.vars, ∀ t, ¬(s.pc t).Uses v) := List.decidableBAll _ op.vars
    inferInstanceAs (Decidable (op.Live s ∧ ∀ v ∈ op.vars, ∀ t, ¬(s.pc t).Uses v))
  | .go _ => inferInstanceAs (Decidable True)

end NetKernel.SharedRefs
