import Mathlib.Data.List.Nodup

/-! Recency: the distinct entries of a log, the latest first, and what keeping only
the first few of them does when the log grows. -/
namespace NetKernel.Recency
variable {α : Type*} [DecidableEq α]

/-- The distinct entries of a log whose newest entry comes first, by last use. -/
def recent : List α → List α
  | [] => []
  | a :: log => a :: (recent log).erase a

/-- Puts `a` in front of at most `n` entries. -/
def promote (n : Nat) (a : α) (l : List α) : List α := (a :: l.erase a).take n

@[simp] theorem mem_recent {a : α} {log : List α} : a ∈ recent log ↔ a ∈ log := by
  induction log with
  | nil => rfl
  | cons b log ih =>
    by_cases hab : a = b
    · simp only [recent, hab, List.mem_cons, true_or]
    · simp only [recent, List.mem_cons, hab, false_or, List.mem_erase_of_ne hab, ih]

theorem nodup_recent (log : List α) : (recent log).Nodup := by
  induction log with
  | nil => exact List.nodup_nil
  | cons a log ih => exact List.nodup_cons.mpr ⟨ih.not_mem_erase, ih.erase a⟩

theorem take_erase (a : α) (m : Nat) (l : List α) :
    (l.erase a).take m = ((l.take (m+1)).erase a).take m := by
  induction l generalizing m with
  | nil => rw [List.take_nil]
  | cons b l ih =>
    rw [List.take_succ_cons]
    by_cases hb : b = a
    · subst hb
      rw [List.erase_cons_head, List.erase_cons_head, List.take_take, Nat.min_self]
    rw [List.erase_cons_tail (by simpa using hb), List.erase_cons_tail (by simpa using hb)]
    cases m with
    | zero => rfl
    | succ m => rw [List.take_succ_cons, List.take_succ_cons, ih m]

theorem take_recent_cons (n : Nat) (a : α) (log : List α) :
    (recent (a :: log)).take n = promote n a ((recent log).take n) := by
  cases n with
  | zero => rfl
  | succ m => rw [recent, promote, List.take_succ_cons, List.take_succ_cons, take_erase]

variable {n : Nat} {a : α} {l r s : List α}

theorem promote_held (hl : (r ++ a :: s).length ≤ n) (ha : a ∉ r) :
    promote n a (r ++ a :: s) = a :: (r ++ s) := by
  rw [promote, List.erase_append_right _ ha, List.erase_cons_head, List.take_of_length_le]
  simp only [List.length_append, List.length_cons] at hl ⊢
  omega

theorem promote_room (hl : l.length < n) (ha : a ∉ l) : promote n a l = a :: l := by
  rw [promote, List.erase_of_not_mem ha, List.take_of_length_le]
  simp only [List.length_cons]
  omega

theorem promote_full (b : α) (hl : (l ++ [b]).length = n) (ha : a ∉ l ++ [b]) :
    promote n a (l ++ [b]) = a :: l := by
  simp only [List.length_append, List.length_cons, List.length_nil] at hl
  rw [promote, List.erase_of_not_mem ha, ← hl, List.take_succ_cons]
  simp

end NetKernel.Recency
