import NetKernel.Lib.Words
import Mathlib.Data.Nat.Init
import Mathlib.Data.List.Basic

/-! One's-complement sums of big-endian 16-bit words. The folded sum is the
canonical residue modulo 65535 that is zero only for the zero sum. -/
namespace NetKernel.OnesComplement
open Words

/-- Sum of the big-endian words of a byte string; an odd last byte is padded
on the right. -/
def wordSum : List UInt8 → Nat
  | a :: b :: rest => 256 * a.toNat + b.toNat + wordSum rest
  | [a] => 256 * a.toNat
  | [] => 0

/-- One end-around carry per unit of fuel, until the high half is empty. -/
def fold : Nat → Nat → Nat
  | 0, s => s
  | n+1, s => if s >>> 16 = 0 then s else fold n ((s &&& 0xFFFF) + (s >>> 16))

theorem carry_eq (s : Nat) : (s &&& 0xFFFF) + (s >>> 16) = s % 65536 + s / 65536 := by
  rw [show (0xFFFF : Nat) = 2^16-1 from rfl, Nat.and_two_pow_sub_one_eq_mod,
    Nat.shiftRight_eq_div_pow]

theorem fold_succ (n s : Nat) :
    fold (n+1) s = if s < 65536 then s else fold n (s % 65536 + s / 65536) := by
  have hs : s >>> 16 = 0 ↔ s < 65536 := by
    rw [Nat.shiftRight_eq_div_pow, Nat.div_eq_zero_iff]; omega
  simp only [fold, hs, carry_eq]

theorem fold_mod (n s : Nat) : fold n s % 65535 = s % 65535 := by
  induction n generalizing s with
  | zero => rfl
  | succ n ih =>
    rw [fold_succ]
    split
    · rfl
    · rw [ih]; omega

theorem fold_pos (n s : Nat) (h : 0 < s) : 0 < fold n s := by
  induction n generalizing s with
  | zero => exact h
  | succ n ih =>
    rw [fold_succ]
    split
    · exact h
    · exact ih _ (by omega)

/-- Two carries empty the high half of any 32-bit sum, so a third test of the
loop condition always fails. -/
theorem fold_lt (n s : Nat) (h : s < 2^32) : fold (n+2) s < 65536 := by
  have hfix : ∀ m t, t < 65536 → fold m t = t := by
    intro m t ht
    cases m with
    | zero => rfl
    | succ m => rw [fold_succ, if_pos ht]
  rw [fold_succ]
  split
  · assumption
  · rw [fold_succ]
    split
    · assumption
    · rw [hfix n _ (by omega)]
      omega

/-- The 16-bit value that stands for a sum: its residue, where only the zero sum is zero. -/
structure Folds (s r : Nat) : Prop where
  lt : r < 65536
  mod : r % 65535 = s % 65535
  zero : r = 0 ↔ s = 0

theorem Folds.unique {s r r' : Nat} (h : Folds s r) (h' : Folds s r') : r = r' := by
  have hlt := h.lt
  have hlt' := h'.lt
  have hmod := h.mod.trans h'.mod.symm
  have hzero := h.zero.trans h'.zero.symm
  omega

theorem Folds.ones_iff {s r : Nat} (h : Folds s r) : r = 65535 ↔ 0 < s ∧ s % 65535 = 0 := by
  have hlt := h.lt
  have hmod := h.mod
  have hzero := h.zero
  omega

theorem fold_folds (n s : Nat) (h : s < 2^32) : Folds s (fold (n+2) s) := by
  refine ⟨fold_lt n s h, fold_mod (n+2) s, fun he => ?_, fun he => ?_⟩
  · by_contra hs
    have := fold_pos (n+2) s (Nat.pos_of_ne_zero hs)
    omega
  · rw [he, fold_succ, if_pos (by decide)]

theorem wordSum_le (l : List UInt8) : wordSum l ≤ (l.length + 1) / 2 * 65535 := by
  induction l using wordSum.induct with
  | case1 a b rest ih =>
    have ha := a.toNat_lt
    have hb := b.toNat_lt
    simp only [wordSum, List.length_cons]
    omega
  | case2 a =>
    have ha := a.toNat_lt
    simp only [wordSum, List.length_cons, List.length_nil]
    omega
  | case3 => simp [wordSum]

theorem wordSum_append (l r : List UInt8) (h : l.length % 2 = 0) :
    wordSum (l ++ r) = wordSum l + wordSum r := by
  induction l using wordSum.induct with
  | case1 a b rest ih =>
    simp only [List.length_cons] at h
    simp only [List.cons_append, wordSum, ih (by omega)]
    omega
  | case2 a => simp at h
  | case3 => simp [wordSum]

theorem wordSum_replicate_zero (n : Nat) : wordSum (List.replicate n 0) = 0 := by
  induction n using Nat.twoStepInduction with
  | zero => rfl
  | one => rfl
  | more n ih _ => simpa [List.replicate_succ, wordSum] using ih

def checksum (l : List UInt8) : UInt16 := ~~~(UInt16.ofNat (fold 3 (wordSum l)))

theorem toNat_complement (s : Nat) (h : s < 65536) :
    (~~~(UInt16.ofNat s)).toNat = 65535 - s := by
  rw [UInt16.toNat_not, UInt16.toNat_ofNat_of_lt' (by simpa using h)]
  rfl

theorem toNat_checksum (l : List UInt8) (h : wordSum l < 2^32) :
    (checksum l).toNat = 65535 - fold 3 (wordSum l) :=
  toNat_complement _ (fold_lt 1 _ h)

theorem checksum_eq_zero (l : List UInt8) (h : wordSum l < 2^32) :
    checksum l = 0 ↔ 0 < wordSum l ∧ wordSum l % 65535 = 0 := by
  have hc := toNat_checksum l h
  have hl : fold 3 (wordSum l) < 65536 := fold_lt 1 _ h
  rw [← (fold_folds 1 _ h).ones_iff, ← UInt16.toNat_inj, hc]
  change 65535 - fold 3 (wordSum l) = 0 ↔ fold 3 (wordSum l) = 65535
  omega

/-! One's-complement addition, as end-around carry of 16-bit words. -/

def words : List UInt8 → List UInt16
  | a :: b :: rest => UInt16.ofNat (256 * a.toNat + b.toNat) :: words rest
  | [a] => [UInt16.ofNat (256 * a.toNat)]
  | [] => []

/-- A carry out of the high end is added back at the low end. -/
def addCarry (a b : UInt16) : UInt16 :=
  if a.toNat + b.toNat < 65536 then UInt16.ofNat (a.toNat + b.toNat)
  else UInt16.ofNat (a.toNat + b.toNat - 65535)

def onesSum : List UInt16 → UInt16
  | [] => 0
  | w :: ws => addCarry w (onesSum ws)

theorem Folds.addCarry {a b : UInt16} {s : Nat} (h : Folds s b.toNat) :
    Folds (a.toNat + s) (addCarry a b).toNat := by
  have ha := a.toNat_lt
  have hlt := h.lt
  have hmod := h.mod
  have hzero := h.zero
  rw [OnesComplement.addCarry]
  split
  · rw [UInt16.toNat_ofNat_of_lt' (by simpa using ‹_›)]
    constructor <;> omega
  · rw [UInt16.toNat_ofNat_of_lt' (by change _ < 65536; omega)]
    constructor <;> omega

theorem onesSum_folds (l : List UInt8) : Folds (wordSum l) (onesSum (words l)).toNat := by
  induction l using wordSum.induct with
  | case1 a b rest ih =>
    have ha := a.toNat_lt
    have hb := b.toNat_lt
    have hw := ih.addCarry (a := UInt16.ofNat (256 * a.toNat + b.toNat))
    rwa [UInt16.toNat_ofNat_of_lt' (by change _ < 65536; omega)] at hw
  | case2 a =>
    have ha := a.toNat_lt
    have h0 : Folds 0 (0 : UInt16).toNat := ⟨by decide, rfl, by decide⟩
    have hw := h0.addCarry (a := UInt16.ofNat (256 * a.toNat))
    rwa [UInt16.toNat_ofNat_of_lt' (by change _ < 65536; omega)] at hw
  | case3 => exact ⟨by decide, rfl, by decide⟩

theorem checksum_eq_onesSum (l : List UInt8) (h : wordSum l < 2^32) :
    checksum l = ~~~onesSum (words l) := by
  have hf := (fold_folds 1 _ h).unique (onesSum_folds l)
  rw [checksum, hf, UInt16.ofNat_toNat]

/-! One word replaced by another. -/

/-- The two representations of zero, exchanged. -/
def Exchange (w w' : List UInt8) : Prop :=
  w = [0, 0] ∧ w' = [255, 255] ∨ w = [255, 255] ∧ w' = [0, 0]

instance (w w' : List UInt8) : Decidable (Exchange w w') :=
  inferInstanceAs (Decidable (w = [0, 0] ∧ w' = [255, 255] ∨ w = [255, 255] ∧ w' = [0, 0]))

theorem wordSum_injective {w w' : List UInt8} (hw : w.length = 1 ∨ w.length = 2)
    (hl : w'.length = w.length) (hne : w' ≠ w) (hx : ¬Exchange w w') :
    wordSum w % 65535 ≠ wordSum w' % 65535 := by
  intro he
  obtain h1 | h2 := hw
  · obtain ⟨a,rfl⟩ := List.length_eq_one_iff.mp h1
    obtain ⟨b,rfl⟩ := List.length_eq_one_iff.mp hl
    have ha := a.toNat_lt
    have hb := b.toNat_lt
    simp only [wordSum] at he
    have hab : b.toNat = a.toNat := by omega
    exact hne (congrArg (fun x => [x]) (UInt8.toNat_inj.mp hab))
  · obtain ⟨a,b,rfl⟩ := List.length_eq_two.mp h2
    obtain ⟨c,d,rfl⟩ := List.length_eq_two.mp (hl.trans h2)
    have ha := a.toNat_lt
    have hb := b.toNat_lt
    have hc := c.toNat_lt
    have hd := d.toNat_lt
    simp only [wordSum] at he
    have h0 : (0 : UInt8).toNat = 0 := rfl
    have h255 : (255 : UInt8).toNat = 255 := rfl
    simp only [ne_eq, Exchange, List.cons.injEq, and_true, ← UInt8.toNat_inj, h0, h255] at hne hx
    have hcases : 256 * a.toNat + b.toNat = 256 * c.toNat + d.toNat ∨
        256 * a.toNat + b.toNat = 0 ∧ 256 * c.toNat + d.toNat = 65535 ∨
        256 * a.toNat + b.toNat = 65535 ∧ 256 * c.toNat + d.toNat = 0 := by omega
    obtain hsame | hup | hdown := hcases
    · exact hne ⟨by omega, by omega⟩
    · exact hx (Or.inl ⟨⟨by omega, by omega⟩, by omega, by omega⟩)
    · exact hx (Or.inr ⟨⟨by omega, by omega⟩, by omega, by omega⟩)

/-- Damage to one word, or to the odd last byte, of a string with checksum zero shows. -/
theorem checksum_replace {pre w w' post : List UInt8} (he : pre.length % 2 = 0)
    (hw : w.length = 1 ∧ post = [] ∨ w.length = 2) (hl : w'.length = w.length) (hne : w' ≠ w)
    (hx : ¬Exchange w w') (hlen : (pre ++ (w ++ post)).length < 2^16)
    (h0 : checksum (pre ++ (w ++ post)) = 0) : checksum (pre ++ (w' ++ post)) ≠ 0 := by
  have hsum : ∀ v : List UInt8, v.length = w.length →
      wordSum (pre ++ (v ++ post)) = wordSum pre + (wordSum v + wordSum post) := by
    intro v hv
    rw [wordSum_append _ _ he]
    obtain ⟨-,rfl⟩ | h2 := hw
    · rw [List.append_nil]
      rfl
    · rw [wordSum_append v post (by rw [hv, h2])]
  have hbound := wordSum_le (pre ++ (w ++ post))
  have hbound' := wordSum_le (pre ++ (w' ++ post))
  have hlen' : (pre ++ (w' ++ post)).length = (pre ++ (w ++ post)).length := by
    simp only [List.length_append, hl]
  have hres := wordSum_injective (hw.imp_left And.left) hl hne hx
  intro h0'
  have hz := ((checksum_eq_zero _ (by omega)).mp h0).2
  have hz' := ((checksum_eq_zero _ (by omega)).mp h0').2
  rw [hsum w rfl] at hz
  rw [hsum w' hl] at hz'
  omega

/-- The checksum of a string with a zero word, stored there in network order,
makes the checksum of the whole zero. -/
theorem checksum_seal (pre post : List UInt8) (he : pre.length % 2 = 0)
    (hl : (pre ++ post).length < 2^16) :
    checksum (pre ++ (store16 (bswap16 (checksum (pre ++ (store16 0 ++ post)))) ++ post)) = 0 := by
  have hpre := wordSum_le pre
  have hpost := wordSum_le post
  rw [List.length_append] at hl
  have hz : wordSum (pre ++ (store16 0 ++ post)) = wordSum pre + wordSum post := by
    rw [wordSum_append _ _ he, wordSum_append (store16 0) post rfl]
    change wordSum pre + (0 + wordSum post) = _
    rw [Nat.zero_add]
  have hs : ∀ c, wordSum (pre ++ (store16 (bswap16 c) ++ post)) =
      wordSum pre + (c.toNat + wordSum post) := by
    intro c
    have hc : wordSum (store16 (bswap16 c)) = c.toNat := by
      simp only [store16_bswap16, wordSum, toNat_highByte, toNat_lowByte]
      omega
    rw [wordSum_append _ _ he, wordSum_append (store16 (bswap16 c)) post (by simp), hc]
  have hc := toNat_checksum (pre ++ (store16 0 ++ post)) (by omega)
  have hf : Folds (wordSum pre + wordSum post) (fold 3 (wordSum pre + wordSum post)) :=
    fold_folds 1 _ (by omega)
  have hlt := hf.lt
  have hmod := hf.mod
  have hzero := hf.zero
  rw [hz] at hc
  rw [checksum_eq_zero _ (by rw [hs]; omega), hs, hc]
  omega

end NetKernel.OnesComplement
