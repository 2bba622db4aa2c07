import Mathlib.Data.List.Basic

/-! A queue of at most `cap` entries, served in the order of their arrival. -/
namespace NetKernel.BoundedFifo
variable {α : Type*} {cap : Nat}

structure Fifo (α : Type*) (cap : Nat) where
  items : List α
  bounded : items.length ≤ cap

def Fifo.empty : Fifo α cap := ⟨[], Nat.zero_le _⟩

def Fifo.push (q : Fifo α cap) (a : α) : Fifo α cap :=
  if h : q.items.length < cap then ⟨q.items ++ [a], by
    rw [List.length_append]
    exact h⟩ else q

def Fifo.rest (q : Fifo α cap) : Fifo α cap :=
  ⟨q.items.tail, by
    rw [List.length_tail]
    exact Nat.le_trans (Nat.sub_le _ _) q.bounded⟩

variable {q : Fifo α cap} {a : α}

theorem items_push (h : q.items.length < cap) : (q.push a).items = q.items ++ [a] := by
  rw [Fifo.push, dif_pos h]

theorem push_full (h : ¬q.items.length < cap) : q.push a = q := dif_neg h

theorem items_rest {l : List α} (h : q.items = a :: l) : q.rest.items = l := by
  change q.items.tail = l
  rw [h, List.tail_cons]

end NetKernel.BoundedFifo
