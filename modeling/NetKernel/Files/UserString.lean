import NetKernel.Files.PathResolution
import NetKernel.Memory.UserBuffer
import NetKernel.Memory.UserMemory

/-! `copy_user_string`: a loop over the bytes of the user, each one checked by
`user_buffer_ok` before it is loaded through the page tables. -/
namespace NetKernel.UserStrings
open Function Loops FlatMemory
open AddressSpaces (canonical)
open Frames (Ram)
open Heaps (wrap)
open UserBuffer (userBufferOk onePage)
open UserMemory (userByte)

/-- The address space that a system call runs in. -/
structure UserSpace where
  ram : Ram
  root : Nat
  hhdmOffset : Nat

/-- `VMM::user_buffer_ok((const char *)a, 1)`. -/
def UserSpace.ok (u : UserSpace) (a : Nat) : Bool := userBufferOk u.ram u.root u.hhdmOffset a 1

/-- The load of a byte; `none` is a fault. -/
def UserSpace.loadByte (u : UserSpace) (a : Nat) : Option UInt8 :=
  if canonical a then (userByte u.root u.ram a).map UInt8.ofNat else none

/-- The byte that can be read at an address: accepted, and loaded without a fault. -/
def UserSpace.char (u : UserSpace) (a : Nat) : Option UInt8 :=
  if u.ok a then u.loadByte a else none

/-- `mem` is the kernel's memory, with the buffer in it. `reads` are the addresses loaded
from, `writes` those stored to, in order. -/
structure CopyState where
  i : Nat
  mem : Nat → UInt8
  reads : List Nat
  writes : List Nat

def CopyState.store (s : CopyState) (a : Nat) (c : UInt8) : CopyState :=
  { s with mem := update s.mem a c, writes := s.writes ++ [a] }

def CopyState.read (s : CopyState) (a : Nat) : CopyState := { s with reads := s.reads ++ [a] }

/-- One round of the loop, and what comes after it. The result is that of the function;
`none` is a fault. -/
def copyBody (u : UserSpace) (out cap user : Nat) (s : CopyState) :
    CopyState ⊕ Option Bool × CopyState :=
  if s.i+1 < cap then
    let ptr := wrap (user+s.i)
    if !u.ok ptr then .inr (some false, s)
    else
      match u.loadByte ptr with
      | none => .inr (none, s.read ptr)
      | some c =>
        let copied := (s.read ptr).store (out+s.i) c
        if c = 0 then .inr (some true, copied) else .inl { copied with i := s.i+1 }
  else .inr (some false, s.store (out+(cap-1)) 0)

/-- `copy_user_string(out, cap, user)` ends with a result and leaves a state. -/
def CopyUserString (u : UserSpace) (out cap user : Nat) (mem : Nat → UInt8)
    (r : Option Bool × CopyState) : Prop :=
  if cap = 0 ∨ user = 0 then r = (some false, ⟨0, mem, [], []⟩)
  else Returns (copyBody u out cap user) ⟨0, mem, [], []⟩ r

/-- The first zero byte from `user` on is the one at distance `k`, and all up to it can be read. -/
def StringAt (char : Nat → Option UInt8) (user k : Nat) : Prop :=
  (∀ j < k, ∃ c, c ≠ 0 ∧ char (wrap (user+j)) = some c) ∧ char (wrap (user+k)) = some 0

theorem StringAt.unique {char : Nat → Option UInt8} {user k k' : Nat}
    (h : StringAt char user k) (h' : StringAt char user k') : k = k' := by
  obtain hlt | heq | hgt := Nat.lt_trichotomy k k'
  · obtain ⟨c,hc,hchar⟩ := h'.1 k hlt
    exact absurd (Option.some.inj (hchar.symm.trans h.2)) hc
  · exact heq
  · obtain ⟨c,hc,hchar⟩ := h.1 k' hgt
    exact absurd (Option.some.inj (hchar.symm.trans h'.2)) hc

variable {u : UserSpace} {out cap user : Nat} {mem : Nat → UInt8} {s : CopyState}

theorem char_eq_some {a : Nat} {c : UInt8} :
    u.char a = some c ↔ u.ok a = true ∧ u.loadByte a = some c := by
  rw [UserSpace.char]
  split
  · exact (and_iff_right ‹_›).symm
  · exact iff_of_false nofun fun h => ‹¬_› h.1

/-- What a run keeps to: it loads what `user_buffer_ok` accepts, and stores in the buffer. -/
structure Confined (u : UserSpace) (out cap : Nat) (mem : Nat → UInt8) (s : CopyState) :
    Prop where
  reads : ∀ a ∈ s.reads, u.ok a = true
  writes : ∀ a ∈ s.writes, out ≤ a ∧ a < out+cap
  frame : ∀ a, a < out ∨ out+cap ≤ a → s.mem a = mem a

/-- The invariant: before round `i` the buffer has the bytes before `i`, none of them zero. -/
structure Copied (u : UserSpace) (out cap user : Nat) (mem : Nat → UInt8) (s : CopyState) :
    Prop extends Confined u out cap mem s where
  lt : s.i < cap
  chars : ∀ j < s.i, s.mem (out+j) ≠ 0 ∧ u.char (wrap (user+j)) = some (s.mem (out+j))

/-- The result is true where a string that leaves a place of the buffer free has been copied,
and false where there is none. Without a result, a byte that is accepted has faulted. -/
def Outcome (u : UserSpace) (out cap user : Nat) : Option Bool × CopyState → Prop
  | (some true, t) => ∃ k, k+1 < cap ∧ StringAt u.char user k ∧
      ∀ j ≤ k, u.char (wrap (user+j)) = some (t.mem (out+j))
  | (some false, _) => ∀ k, k+1 < cap → ¬StringAt u.char user k
  | (none, _) => (∀ k, k+1 < cap → ¬StringAt u.char user k) ∧
      ∃ a, u.ok a = true ∧ u.loadByte a = none

theorem Confined.read {a : Nat} (h : Confined u out cap mem s) (ha : u.ok a = true) :
    Confined u out cap mem (s.read a) := by
  refine ⟨fun b hb => ?_, h.writes, h.frame⟩
  obtain hb | hb := List.mem_append.mp hb
  · exact h.reads b hb
  · rw [List.mem_singleton.mp hb]
    exact ha

theorem Confined.store {a : Nat} {c : UInt8} (h : Confined u out cap mem s) (hlo : out ≤ a)
    (hhi : a < out+cap) : Confined u out cap mem (s.store a c) := by
  refine ⟨h.reads, fun b hb => ?_, fun b hb => ?_⟩
  · obtain hb | hb := List.mem_append.mp hb
    · exact h.writes b hb
    · rw [List.mem_singleton.mp hb]
      exact ⟨hlo, hhi⟩
  · rw [← h.frame b hb]
    exact update_of_ne (by omega) _ _

theorem StringAt.readable {char : Nat → Option UInt8} {k j : Nat} (h : StringAt char user k)
    (hj : j ≤ k) : char (wrap (user+j)) ≠ none := by
  obtain hlt | rfl := Nat.lt_or_eq_of_le hj
  · obtain ⟨c,-,hc⟩ := h.1 j hlt
    exact hc ▸ nofun
  · exact h.2 ▸ nofun

theorem Copied.no_string {k : Nat} (h : Copied u out cap user mem s) (hk : k < s.i) :
    ¬StringAt u.char user k := fun hstr => by
  obtain ⟨hne,hchar⟩ := h.chars k hk
  exact hne (Option.some.inj (hchar.symm.trans hstr.2))

theorem Copied.cut (h : Copied u out cap user mem s) (hnone : u.char (wrap (user+s.i)) = none)
    (k : Nat) : ¬StringAt u.char user k := fun hstr => by
  by_cases hk : k < s.i
  · exact h.no_string hk hstr
  · exact hstr.readable (Nat.le_of_not_lt hk) hnone

theorem Copied.chars_store {c : UInt8} (h : Copied u out cap user mem s)
    (hc : u.char (wrap (user+s.i)) = some c) : ∀ j ≤ s.i,
      u.char (wrap (user+j)) = some (update s.mem (out+s.i) c (out+j)) := by
  intro j hj
  obtain hlt | rfl := Nat.lt_or_eq_of_le hj
  · rw [update_of_ne (by omega)]
    exact (h.chars j hlt).2
  · rw [update_self]
    exact hc

/-! The round, by what the user has there. -/

theorem copyBody_full (hi : ¬s.i+1 < cap) :
    copyBody u out cap user s = .inr (some false, s.store (out+(cap-1)) 0) := by
  rw [copyBody, if_neg hi]

theorem copyBody_refused (hi : s.i+1 < cap) (hok : u.ok (wrap (user+s.i)) = false) :
    copyBody u out cap user s = .inr (some false, s) := by
  simp only [copyBody, if_pos hi, hok, Bool.not_false, if_true]

theorem copyBody_fault (hi : s.i+1 < cap) (hok : u.ok (wrap (user+s.i)) = true)
    (hload : u.loadByte (wrap (user+s.i)) = none) :
    copyBody u out cap user s = .inr (none, s.read (wrap (user+s.i))) := by
  simp only [copyBody, if_pos hi, hok, hload, Bool.not_true, Bool.false_eq_true, if_false]

theorem copyBody_load {c : UInt8} (hi : s.i+1 < cap) (hok : u.ok (wrap (user+s.i)) = true)
    (hload : u.loadByte (wrap (user+s.i)) = some c) : copyBody u out cap user s =
      if c = 0 then .inr (some true, (s.read (wrap (user+s.i))).store (out+s.i) c)
      else .inl { (s.read (wrap (user+s.i))).store (out+s.i) c with i := s.i+1 } := by
  simp only [copyBody, if_pos hi, hok, hload, Bool.not_true, Bool.false_eq_true, if_false]

theorem Copied.next {c : UInt8} (h : Copied u out cap user mem s) (hi : s.i+1 < cap)
    (hc : c ≠ 0) (hok : u.ok (wrap (user+s.i)) = true)
    (hload : u.loadByte (wrap (user+s.i)) = some c) : Copied u out cap user mem
      { (s.read (wrap (user+s.i))).store (out+s.i) c with i := s.i+1 } := by
  have hstore := (h.toConfined.read hok).store (c := c) (Nat.le_add_right out s.i)
    (Nat.add_lt_add_left h.lt out)
  refine ⟨⟨hstore.reads, hstore.writes, hstore.frame⟩, hi, fun j hj => ⟨?_, ?_⟩⟩
  · obtain hlt | rfl := Nat.lt_succ_iff_lt_or_eq.mp hj
    · have hne : out+j ≠ out+s.i := by omega
      exact (update_of_ne hne _ _).trans_ne (h.chars j hlt).1
    · exact (update_self _ _ _).trans_ne hc
  · exact h.chars_store (char_eq_some.mpr ⟨hok, hload⟩) j (Nat.le_of_lt_succ hj)

/-- One round leaves with the outcome, or keeps the invariant. -/
theorem copyBody_round (h : Copied u out cap user mem s) :
    (∃ r, copyBody u out cap user s = .inr r ∧ Outcome u out cap user r ∧
      Confined u out cap mem r.2) ∨
    ∃ t, copyBody u out cap user s = .inl t ∧ Copied u out cap user mem t ∧
      cap-t.i < cap-s.i := by
  have hlt := h.lt
  by_cases hi : s.i+1 < cap
  · cases hok : u.ok (wrap (user+s.i)) with
    | false =>
      have hnone : u.char (wrap (user+s.i)) = none := by rw [UserSpace.char, hok]; rfl
      exact Or.inl ⟨_, copyBody_refused hi hok, fun k _ => h.cut hnone k, h.toConfined⟩
    | true =>
      cases hload : u.loadByte (wrap (user+s.i)) with
      | none =>
        have hnone : u.char (wrap (user+s.i)) = none := by rw [UserSpace.char, hok]; exact hload
        exact Or.inl ⟨_, copyBody_fault hi hok hload,
          ⟨fun k _ => h.cut hnone k, _, hok, hload⟩, h.toConfined.read hok⟩
      | some c =>
        have hchar : u.char (wrap (user+s.i)) = some c := char_eq_some.mpr ⟨hok, hload⟩
        by_cases hc : c = 0
        · subst hc
          refine Or.inl ⟨_, (copyBody_load hi hok hload).trans (if_pos rfl),
            ⟨s.i, hi, ⟨fun j hj => ⟨_, h.chars j hj⟩, hchar⟩, h.chars_store hchar⟩, ?_⟩
          exact (h.toConfined.read hok).store (Nat.le_add_right out s.i)
            (Nat.add_lt_add_left hlt out)
        · refine Or.inr ⟨_, (copyBody_load hi hok hload).trans (if_neg hc), h.next hi hc hok hload,
            ?_⟩
          change cap-(s.i+1) < cap-s.i
          omega
  · refine Or.inl ⟨_, copyBody_full hi, fun k hk => h.no_string (by omega), ?_⟩
    exact h.toConfined.store (by omega) (by omega)

theorem copyBody_returns (u : UserSpace) (out user : Nat) (mem : Nat → UInt8) (hcap : 0 < cap) :
    ∃ r, Returns (copyBody u out cap user) ⟨0, mem, [], []⟩ r ∧ Outcome u out cap user r ∧
      Confined u out cap mem r.2 := by
  have h0 : Copied u out cap user mem ⟨0, mem, [], []⟩ :=
    ⟨⟨nofun, nofun, fun _ _ => rfl⟩, hcap, nofun⟩
  exact returns_of_measure (fun s => cap-s.i) (fun s hs => copyBody_round hs) h0

theorem Outcome.true_iff {r : Option Bool} {t : CopyState} (h : Outcome u out cap user (r, t)) :
    r = some true ↔ ∃ k, k+1 < cap ∧ StringAt u.char user k := by
  match r, h with
  | some true, h =>
    obtain ⟨k,hk,hstr,-⟩ := h
    exact iff_of_true rfl ⟨k, hk, hstr⟩
  | some false, h => exact iff_of_false nofun fun ⟨k,hk,hstr⟩ => h k hk hstr
  | none, h => exact iff_of_false nofun fun ⟨k,hk,hstr⟩ => h.1 k hk hstr

theorem Outcome.copied {r : Option Bool} {t : CopyState} {k j : Nat}
    (h : Outcome u out cap user (r, t)) (hk : k+1 < cap) (hstr : StringAt u.char user k)
    (hj : j ≤ k) : u.char (wrap (user+j)) = some (t.mem (out+j)) := by
  obtain rfl := h.true_iff.mpr ⟨k, hk, hstr⟩
  obtain ⟨k',-,hstr',hcopied⟩ := h
  exact hcopied j (hstr.unique hstr' ▸ hj)

theorem no_string_null (k : Nat) : ¬StringAt u.char 0 k := fun h => by
  have hnone : u.char (wrap (0+0)) = none := by
    rw [UserSpace.char, UserSpace.ok, userBufferOk, if_neg Nat.one_ne_zero,
      if_pos (Or.inl (by decide))]
    rfl
  exact h.readable (Nat.zero_le k) hnone

/-! The copy that `resolve_path` makes. -/

theorem copyBody_copyLoop {k : Nat} {ok : Bool} {t : CopyState} (hk : s.i+k+1 = cap)
    (hr : Returns (copyBody u out cap user) s (some ok, t)) :
    Paths.copyLoop u.char user (load s.mem out cap) k s.i = (ok, load t.mem out cap) := by
  induction k generalizing s with
  | zero =>
    have hfull : copyBody u out cap user s = .inr (some false, s.store (out+(cap-1)) 0) :=
      copyBody_full (by omega)
    cases hr.unique (returns_done hfull)
    have hi : cap-1 = s.i := by omega
    rw [Paths.copyLoop, hi, ← load_update]
    rfl
  | succ k ih =>
    have hi : s.i+1 < cap := by omega
    rw [Paths.copyLoop]
    cases hok : u.ok (wrap (user+s.i)) with
    | false =>
      have hnone : u.char (wrap (user+s.i)) = none := by rw [UserSpace.char, hok]; rfl
      cases hr.unique (returns_done (copyBody_refused hi hok))
      rw [wrap] at hnone
      rw [hnone]
    | true =>
      cases hload : u.loadByte (wrap (user+s.i)) with
      | none => cases hr.unique (returns_done (copyBody_fault hi hok hload))
      | some c =>
        have hchar : u.char (wrap (user+s.i)) = some c := char_eq_some.mpr ⟨hok, hload⟩
        have hbody : copyBody u out cap user s = _ := copyBody_load hi hok hload
        rw [wrap] at hchar
        rw [hchar]
        change (if c = 0 then _ else _) = _
        rw [← load_update]
        by_cases hc : c = 0
        · rw [if_pos hc] at hbody ⊢
          cases hr.unique (returns_done hbody)
          rfl
        · rw [if_neg hc] at hbody ⊢
          exact ih (by change s.i+1+k+1 = cap; omega) ((returns_next hbody).mp hr)

theorem copyUserString_eq {ok : Bool} {t : CopyState}
    (h : CopyUserString u out cap user mem (some ok, t)) :
    Paths.copyUserString (load mem out cap) u.char user = (ok, load t.mem out cap) := by
  rw [Paths.copyUserString, length_load]
  by_cases hnull : cap = 0 ∨ user = 0
  · rw [CopyUserString, if_pos hnull] at h
    cases h
    rw [if_pos hnull]
  · rw [CopyUserString, if_neg hnull] at h
    rw [if_neg hnull]
    exact copyBody_copyLoop (s := ⟨0, mem, [], []⟩) (by change 0+(cap-1)+1 = cap; omega) h

/-- `copy_user_string` ends in one way, with true exactly for a string that leaves the last
place of the buffer free, which is then in the buffer. It loads only what `user_buffer_ok`
accepts, and stores in the buffer alone. -/
theorem copy_user_string_iff (u : UserSpace) (out cap user : Nat) (mem : Nat → UInt8) :
    ∃ r t, CopyUserString u out cap user mem (r, t) ∧
      (∀ p, CopyUserString u out cap user mem p → p = (r, t)) ∧
      (r = some true ↔ ∃ k, k+1 < cap ∧ StringAt u.char user k) ∧
      (∀ k, k+1 < cap → StringAt u.char user k →
        ∀ j ≤ k, u.char (wrap (user+j)) = some (t.mem (out+j))) ∧
      (r = none → ∃ a, u.ok a = true ∧ u.loadByte a = none) ∧
      Confined u out cap mem t := by
  by_cases hnull : cap = 0 ∨ user = 0
  · have hno : ∀ k, k+1 < cap → ¬StringAt u.char user k := by
      intro k hk
      obtain rfl | rfl := hnull
      · exact absurd hk (Nat.not_lt_zero _)
      · exact no_string_null k
    refine ⟨some false, ⟨0, mem, [], []⟩, ?_, fun p hp => ?_, ?_, fun k hk hstr => ?_, nofun, ?_⟩
    · rw [CopyUserString, if_pos hnull]
    · rwa [CopyUserString, if_pos hnull] at hp
    · exact iff_of_false nofun fun ⟨k,hk,hstr⟩ => hno k hk hstr
    · exact absurd hstr (hno k hk)
    · exact ⟨nofun, nofun, fun _ _ => rfl⟩
  · obtain ⟨⟨r,t⟩,hret,hout,hconf⟩ := copyBody_returns u out user mem (show 0 < cap by omega)
    refine ⟨r, t, ?_, fun p hp => ?_, hout.true_iff, fun k hk hstr j hj => hout.copied hk hstr hj,
      ?_, hconf⟩
    · rwa [CopyUserString, if_neg hnull]
    · rw [CopyUserString, if_neg hnull] at hp
      exact hp.unique hret
    · rintro rfl
      exact hout.2

def abcPage : Ram := fun f i => if f = 9 ∧ i = 0 then 0x636261 else onePage f i

/-- The string fills four places, and is refused all the same. -/
theorem copy_user_string_full : ¬∀ (u : UserSpace) (out cap user : Nat) (mem : Nat → UInt8)
    (r : Option Bool) (t : CopyState), 0 < cap → CopyUserString u out cap user mem (r, t) →
      (r = some true ↔ ∃ k, k ≤ cap-1 ∧ StringAt u.char user k) := by
  intro h
  have hchar : (List.range 4).map (fun j => (⟨abcPage, 1, 0xFFFF800000000000⟩ : UserSpace).char
      (wrap (0x5000+j))) = [some 97, some 98, some 99, some 0] := by decide +kernel
  simp only [List.range, List.range.loop, List.map_cons, List.map_nil, List.cons.injEq,
    and_true] at hchar
  obtain ⟨h0,h1,h2,h3⟩ := hchar
  have hstr : StringAt (⟨abcPage, 1, 0xFFFF800000000000⟩ : UserSpace).char 0x5000 3 := by
    refine ⟨fun j hj => ?_, h3⟩
    obtain rfl | rfl | rfl : j = 0 ∨ j = 1 ∨ j = 2 := by omega
    · exact ⟨97, by decide, h0⟩
    · exact ⟨98, by decide, h1⟩
    · exact ⟨99, by decide, h2⟩
  obtain ⟨⟨r,t⟩,hret,hout,-⟩ := copyBody_returns ⟨abcPage, 1, 0xFFFF800000000000⟩ 0x10000 0x5000
    (fun _ => 0) (show 0 < 4 by decide)
  have hcopy : CopyUserString ⟨abcPage, 1, 0xFFFF800000000000⟩ 0x10000 4 0x5000 (fun _ => 0)
      (r, t) := by
    rwa [CopyUserString, if_neg (by decide)]
  have htrue := (h _ _ _ _ _ r t (by decide) hcopy).mpr ⟨3, by decide, hstr⟩
  obtain ⟨k,hk,hstr'⟩ := hout.true_iff.mp htrue
  have := hstr.unique hstr'
  omega

end NetKernel.UserStrings
