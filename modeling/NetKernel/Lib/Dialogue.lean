import Mathlib.Logic.Function.Basic

/-! Programs that put requests to their environment and go on from the answers. A contract
says which requests are due, which answers may come, and what both change; its rules
follow the program. -/
namespace NetKernel.Dialogues
variable {Q : Type} {A : Q → Type} {β γ : Type} {σ τ : Type*}

/-- A program over the requests `Q`; `halt` is a program that never goes on. -/
inductive Dialogue (Q : Type) (A : Q → Type) (β : Type) where
  | done (result : β)
  | halt
  | ask (q : Q) (next : A q → Dialogue Q A β)

def Dialogue.bind : Dialogue Q A β → (β → Dialogue Q A γ) → Dialogue Q A γ
  | .done b, f => f b
  | .halt, _ => .halt
  | .ask q next, f => .ask q fun a => (next a).bind f

instance : Monad (Dialogue Q A) where
  pure := .done
  bind := .bind

theorem Dialogue.bind_done (p : Dialogue Q A β) : p.bind .done = p := by
  induction p with
  | done b => rfl
  | halt => rfl
  | ask q next ih => exact congrArg (Dialogue.ask q) (funext ih)

theorem Dialogue.bind_bind {δ : Type} (p : Dialogue Q A β) (f : β → Dialogue Q A γ)
    (g : γ → Dialogue Q A δ) : (p.bind f).bind g = p.bind fun b => (f b).bind g := by
  induction p with
  | done b => rfl
  | halt => rfl
  | ask q next ih => exact congrArg (Dialogue.ask q) (funext ih)

instance : LawfulMonad (Dialogue Q A) := .mk' _ Dialogue.bind_done (fun _ _ => rfl) Dialogue.bind_bind

def request (q : Q) : Dialogue Q A (A q) := .ask q .done

/-- One request with its answer. -/
abbrev Event (Q : Type) (A : Q → Type) := Sigma A

structure Environment (Q : Type) (A : Q → Type) (σ : Type*) where
  answer : σ → (q : Q) → A q × σ

variable (E : Environment Q A σ)

/-- The result, none if the program halts, and the environment it leaves. -/
def Dialogue.exec : Dialogue Q A β → σ → Option β × σ
  | .done b, s => (some b, s)
  | .halt, s => (none, s)
  | .ask q next, s => (next (E.answer s q).1).exec (E.answer s q).2

def Dialogue.trace : Dialogue Q A β → σ → List (Event Q A)
  | .done _, _ => []
  | .halt, _ => []
  | .ask q next, s => ⟨q, (E.answer s q).1⟩ :: (next (E.answer s q).1).trace (E.answer s q).2

/-- The requests a state permits, the answers it may get, and the state after them. -/
structure Contract (Q : Type) (A : Q → Type) (τ : Type*) where
  asks : τ → Q → Prop
  answers : τ → (q : Q) → A q → Prop
  next : τ → (q : Q) → A q → τ

variable {E} {C : Contract Q A τ} {t : τ}

def Contract.after (C : Contract Q A τ) : τ → List (Event Q A) → τ
  | t, [] => t
  | t, e :: es => C.after (C.next t e.1 e.2) es

def Contract.Allows (C : Contract Q A τ) : τ → List (Event Q A) → Prop
  | _, [] => True
  | t, e :: es => C.asks t e.1 ∧ C.Allows (C.next t e.1 e.2) es

def Contract.Answered (C : Contract Q A τ) : τ → List (Event Q A) → Prop
  | _, [] => True
  | t, e :: es => C.answers t e.1 e.2 ∧ C.Answered (C.next t e.1 e.2) es

/-- Under the answers of the contract the program makes permitted requests only and ends
as `post` says, with none where it halts. -/
def Dialogue.Keeps (C : Contract Q A τ) (post : Option β → τ → Prop) :
    Dialogue Q A β → τ → Prop
  | .done b, t => post (some b) t
  | .halt, t => post none t
  | .ask q next, t =>
    C.asks t q ∧ ∀ a, C.answers t q a → (next a).Keeps C post (C.next t q a)

variable {post post' : Option β → τ → Prop} {p : Dialogue Q A β} {q : Q}

/-- The rule of consequence. -/
theorem Dialogue.Keeps.mono (h : p.Keeps C post t) (hpost : ∀ r t, post r t → post' r t) :
    p.Keeps C post' t := by
  induction p generalizing t with
  | done b => exact hpost _ _ h
  | halt => exact hpost _ _ h
  | ask q next ih => exact ⟨h.1, fun a ha => ih a (h.2 a ha)⟩

/-- The rule of sequence. -/
theorem Dialogue.Keeps.bind {f : β → Dialogue Q A γ} {last : Option γ → τ → Prop}
    (h : p.Keeps C post t) (hdone : ∀ b t, post (some b) t → (f b).Keeps C last t)
    (hhalt : ∀ t, post none t → last none t) : (p >>= f).Keeps C last t := by
  induction p generalizing t with
  | done b => exact hdone _ _ h
  | halt => exact hhalt _ h
  | ask q next ih => exact ⟨h.1, fun a ha => ih a (h.2 a ha)⟩

/-- The program makes requests of one kind only and never halts. -/
def Dialogue.Only (P : Q → Prop) : Dialogue Q A β → Prop
  | .done _ => True
  | .halt => False
  | .ask q next => P q ∧ ∀ a, (next a).Only P

variable {P : Q → Prop} {f : β → Dialogue Q A γ}

theorem only_request : (request q : Dialogue Q A (A q)).Only P ↔ P q :=
  ⟨fun h => h.1, fun h => ⟨h, fun _ => trivial⟩⟩

theorem Dialogue.Only.bind (h : p.Only P) (hf : ∀ b, (f b).Only P) : (p >>= f).Only P := by
  induction p with
  | done b => exact hf b
  | halt => exact h.elim
  | ask q next ih => exact ⟨h.1, fun a => ih a (h.2 a)⟩

/-- The rule of stuttering: requests that leave the state of the contract alone. -/
theorem Dialogue.Only.keeps {last : Option γ → τ → Prop} (h : p.Only P)
    (hasks : ∀ q, P q → C.asks t q) (hnext : ∀ q a, P q → C.next t q a = t)
    (hf : ∀ b, (f b).Keeps C last t) : (p >>= f).Keeps C last t := by
  induction p with
  | done b => exact hf b
  | halt => exact h.elim
  | ask q next ih =>
    refine ⟨hasks q h.1, fun a _ => ?_⟩
    rw [hnext q a h.1]
    exact ih a (h.2 a)

theorem Dialogue.Keeps.sound (h : p.Keeps C post t) (s : σ) (ha : C.Answered t (p.trace E s)) :
    C.Allows t (p.trace E s) ∧ post (p.exec E s).1 (C.after t (p.trace E s)) := by
  induction p generalizing s t with
  | done b => exact ⟨trivial, h⟩
  | halt => exact ⟨trivial, h⟩
  | ask q next ih =>
    obtain ⟨hallows,hpost⟩ := ih _ (h.2 _ ha.1) _ ha.2
    exact ⟨⟨h.1, hallows⟩, hpost⟩

/-- What a program does in an environment that simulates the states of its contract where the
requests are permitted. -/
theorem Dialogue.Keeps.simulated {I : σ → τ → Prop} (h : p.Keeps C post t)
    (hI : ∀ s t q, C.asks t q → I s t → C.answers t q (E.answer s q).1 ∧
      I (E.answer s q).2 (C.next t q (E.answer s q).1)) {s : σ} (hs : I s t) :
    ∃ t', I (p.exec E s).2 t' ∧ post (p.exec E s).1 t' := by
  induction p generalizing s t with
  | done b => exact ⟨t, hs, h⟩
  | halt => exact ⟨t, hs, h⟩
  | ask q next ih =>
    obtain ⟨ha,hnext⟩ := hI s t q h.1 hs
    exact ih _ (h.2 _ ha) hnext

theorem exec_bind {f : β → Dialogue Q A γ} {s : σ} : (p >>= f).exec E s =
    match (p.exec E s).1 with
    | some b => (f b).exec E (p.exec E s).2
    | none => (none, (p.exec E s).2) := by
  induction p generalizing s with
  | done b => rfl
  | halt => rfl
  | ask q next ih => exact ih _

end NetKernel.Dialogues
