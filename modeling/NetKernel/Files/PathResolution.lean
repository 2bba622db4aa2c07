import NetKernel.Files.Lookup
import Mathlib.Data.List.TakeWhile

/-! `resolve_path`: two pointers over a buffer whose separators are cut and restored around
each lookup, against a walk over the components of the path. -/
namespace NetKernel.Paths
open Loops Directories Lookups

abbrev maxPath : Nat := 256

/-- The character `/`. -/
abbrev slashChar : UInt8 := 47

/-- A file system as `resolve_path` sees it. `find` is `Ext2::find` in a directory: a node,
the null reference, or no return at all. -/
structure FileTree (ν : Type*) where
  root : ν
  isDir : ν → Bool
  isFile : ν → Bool
  find : ν → List UInt8 → Option (Option ν)

/-- The loop of `copy_user_string` with `k` rounds left, in the buffer `out`; `user` is the
user's memory, `none` where `user_buffer_ok` refuses the byte. -/
def copyLoop (user : Nat → Option UInt8) (address : Nat) (out : List UInt8) :
    Nat → Nat → Bool × List UInt8
  | 0, i => (false, out.set i 0)
  | k+1, i =>
    match user ((address+i) % 2^64) with
    | none => (false, out)
    | some c => if c = 0 then (true, out.set i c) else copyLoop user address (out.set i c) k (i+1)

/-- `copy_user_string(out, cap, user)`; the buffer has `cap` characters. -/
def copyUserString (out : List UInt8) (user : Nat → Option UInt8) (address : Nat) :
    Bool × List UInt8 :=
  if out.length = 0 ∨ address = 0 then (false, out)
  else copyLoop user address out (out.length-1) 0

/-- Moves a pointer up to the first character that stops it; `none` beyond the buffer. -/
def scanFrom (stop : UInt8 → Bool) : List UInt8 → Nat → Option Nat
  | [], _ => none
  | x :: xs, i => if stop x then some i else scanFrom stop xs (i+1)

def scan (stop : UInt8 → Bool) (buffer : List UInt8) (i : Nat) : Option Nat :=
  scanFrom stop (buffer.drop i) i

/-- The variables of `resolve_path`: `p` is an index into the buffer. -/
structure PathState (ν : Type*) where
  buffer : List UInt8
  p : Nat
  node : ν

variable {ν : Type*}

/-- One round of the outer loop. The result is the node or the null reference; `none` is an
access beyond the buffer or a lookup that does not return. -/
def resolveBody (fs : FileTree ν) (s : PathState ν) : PathState ν ⊕ Option (Option ν) :=
  match s.buffer[s.p]? with
  | none => .inr none
  | some c =>
    if c = 0 then .inr (some (if fs.isFile s.node then some s.node else none))
    else if !fs.isDir s.node then .inr (some none)
    else match scan (fun x => x == 0 || x == slashChar) s.buffer s.p with
      | none => .inr none
      | some slash =>
        let saved := s.buffer.getD slash 0
        let cut := s.buffer.set slash 0
        match fs.find s.node (cString (cut.drop s.p)) with
        | none => .inr none
        | some none => .inr (some none)
        | some (some node) =>
          let restored := cut.set slash saved
          match scan (fun x => x != slashChar) restored slash with
          | none => .inr none
          | some p => .inl ⟨restored, p, node⟩

/-- The rest of `resolve_path` after the path is copied, or refused, ends with `r`. -/
def ResolveCopied (fs : FileTree ν) (r : Option (Option ν)) : Bool × List UInt8 → Prop
  | (false, _) => r = some none
  | (true, buffer) =>
    match scan (fun x => x != slashChar) buffer 0 with
    | none => r = none
    | some p => if buffer[p]? = some 0 then r = some none
      else Returns (resolveBody fs) ⟨buffer, p, fs.root⟩ r

/-- `resolve_path(path)` ends with `r`. -/
def ResolvePath (fs : FileTree ν) (user : Nat → Option UInt8) (path : Nat)
    (r : Option (Option ν)) : Prop :=
  ResolveCopied fs r (copyUserString (List.replicate maxPath 0) user path)

/-! What it is for. -/

/-- The path split at runs of `/`, without empty components. -/
def components (path : List UInt8) : List (List UInt8) :=
  (path.splitOn slashChar).filter (· ≠ [])

/-- Every node but the last is a directory, and lookup leads from each to the next. -/
inductive LeadsTo (fs : FileTree ν) : ν → List (List UInt8) → ν → Prop
  | here (nd : ν) : LeadsTo fs nd [] nd
  | step {nd next last : ν} {c : List UInt8} {cs : List (List UInt8)} :
      fs.isDir nd = true → fs.find nd c = some (some next) → LeadsTo fs next cs last →
      LeadsTo fs nd (c :: cs) last

/-- The walk comes to a directory where the lookup of the next component does not return. -/
def Stuck (fs : FileTree ν) (nd : ν) (cs : List (List UInt8)) : Prop :=
  ∃ pre c post mid, cs = pre ++ c :: post ∧ LeadsTo fs nd pre mid ∧ fs.isDir mid = true ∧
    fs.find mid c = none

/-- The walk over the components, step by step. -/
def walk (fs : FileTree ν) : ν → List (List UInt8) → Option (Option ν)
  | nd, [] => some (if fs.isFile nd then some nd else none)
  | nd, c :: cs =>
    if !fs.isDir nd then some none
    else match fs.find nd c with
      | none => none
      | some none => some none
      | some (some next) => walk fs next cs

variable {fs : FileTree ν} {nd last : ν} {cs : List (List UInt8)} {xs ys rest : List UInt8}
  {stop : UInt8 → Bool} {i : Nat}

theorem walk_some : walk fs nd cs = some (some last) ↔
    LeadsTo fs nd cs last ∧ fs.isFile last = true := by
  induction cs generalizing nd with
  | nil =>
    rw [walk]
    constructor
    · intro h
      split at h
      · cases h
        exact ⟨.here _, ‹_›⟩
      · cases h
    · rintro ⟨h,hf⟩
      cases h
      rw [if_pos hf]
  | cons c cs ih =>
    rw [walk]
    constructor
    · intro h
      split at h
      · cases h
      · rename_i hd
        split at h
        · cases h
        · cases h
        · rename_i next hn
          obtain ⟨hl,hf⟩ := ih.mp h
          exact ⟨.step (by simpa using hd) hn hl, hf⟩
    · rintro ⟨h,hf⟩
      cases h with
      | step hd hn hl =>
        rw [if_neg (by simp [hd]), hn]
        exact ih.mpr ⟨hl, hf⟩

theorem not_stuck_nil : ¬ Stuck fs nd [] := by
  rintro ⟨pre,c,post,mid,h,-⟩
  simp at h

theorem stuck_cons {c : List UInt8} : Stuck fs nd (c :: cs) ↔ fs.isDir nd = true ∧
    (fs.find nd c = none ∨ ∃ next, fs.find nd c = some (some next) ∧ Stuck fs next cs) := by
  constructor
  · rintro ⟨pre,c',post,mid,h,hl,hd,hf⟩
    cases hl with
    | here =>
      obtain ⟨rfl,-⟩ := List.cons.inj h
      exact ⟨hd, Or.inl hf⟩
    | step hd' hn hl =>
      obtain ⟨rfl,rfl⟩ := List.cons.inj h
      exact ⟨hd', Or.inr ⟨_, hn, _, c', post, mid, rfl, hl, hd, hf⟩⟩
  · rintro ⟨hd,hf | ⟨next,hn,pre,c',post,mid,rfl,hl,hd',hf⟩⟩
    · exact ⟨[], c, cs, nd, rfl, .here nd, hd, hf⟩
    · exact ⟨c :: pre, c', post, mid, rfl, .step hd hn hl, hd', hf⟩

theorem walk_none : walk fs nd cs = none ↔ Stuck fs nd cs := by
  induction cs generalizing nd with
  | nil => exact iff_of_false (by simp [walk]) not_stuck_nil
  | cons c cs ih =>
    rw [walk, stuck_cons]
    by_cases hd : fs.isDir nd = true
    · rw [if_neg (by simp [hd]), and_iff_right hd]
      cases hf : fs.find nd c with
      | none => simp
      | some r =>
        cases r with
        | none => simp
        | some next => simp [ih]
    · rw [if_pos (by simp [hd])]
      simp [hd]

/-! The two scans. -/

theorem scanFrom_append {x : UInt8} (hxs : ∀ y ∈ xs, stop y = false) (hx : stop x = true) :
    scanFrom stop (xs ++ x :: ys) i = some (i+xs.length) := by
  induction xs generalizing i with
  | nil => rw [List.nil_append, scanFrom, if_pos hx, List.length_nil, Nat.add_zero]
  | cons y xs ih =>
    rw [List.cons_append, scanFrom, if_neg (by simp [hxs y List.mem_cons_self]),
      ih fun z hz => hxs z (List.mem_cons_of_mem _ hz), List.length_cons]
    congr 1
    omega

/-! Components. -/

theorem components_slash : components (slashChar :: rest) = components rest := by
  rw [components, List.splitOn_cons_eq_if_modifyHead]
  simp [components]

theorem components_end (hx : slashChar ∉ xs) (hne : xs ≠ []) : components xs = [xs] := by
  rw [components, List.splitOn_eq_singleton hx]
  simp [hne]

theorem components_cons (hx : slashChar ∉ xs) (hne : xs ≠ []) :
    components (xs ++ slashChar :: rest) = xs :: components rest := by
  rw [components, List.splitOn_append_cons_self_of_not_mem hx]
  simp [components, hne]

theorem components_slashes (hx : ∀ x ∈ xs, x = slashChar) :
    components (xs ++ rest) = components rest := by
  induction xs with
  | nil => rfl
  | cons x xs ih =>
    rw [hx x List.mem_cons_self, List.cons_append, components_slash]
    exact ih fun y hy => hx y (List.mem_cons_of_mem _ hy)

/-! One round, on a buffer that holds a component and what follows it. -/

section Round
variable {pre comp slashes tail after : List UInt8} {x y : UInt8}

theorem cString_component (hcomp : ∀ c ∈ comp, c ≠ 0) : cString (comp ++ 0 :: tail) = comp := by
  rw [cString, List.takeWhile_append_of_pos fun c hc => bne_iff_ne.mpr (hcomp c hc),
    List.takeWhile_cons_of_neg (by simp), List.append_nil]

theorem resolveBody_component (hne : comp ≠ []) (hcomp : ∀ c ∈ comp, c ≠ 0 ∧ c ≠ slashChar)
    (hx : x = 0 ∨ x = slashChar) (hrun : x :: tail = slashes ++ y :: after)
    (hslashes : ∀ c ∈ slashes, c = slashChar) (hy : y ≠ slashChar) :
    resolveBody fs ⟨pre ++ (comp ++ x :: tail), pre.length, nd⟩ =
      if !fs.isDir nd then .inr (some none)
      else match fs.find nd comp with
        | none => .inr none
        | some none => .inr (some none)
        | some (some next) => .inl ⟨pre ++ (comp ++ x :: tail),
            pre.length+comp.length+slashes.length, next⟩ := by
  have hset (a b : UInt8) : (pre ++ (comp ++ a :: tail)).set (pre.length+comp.length) b =
      pre ++ (comp ++ b :: tail) := by
    rw [List.set_append_right _ _ (Nat.le_add_right _ _), Nat.add_sub_cancel_left,
      List.set_append_right _ _ (Nat.le_refl _), Nat.sub_self, List.set_cons_zero]
  have hsaved : (pre ++ (comp ++ x :: tail)).getD (pre.length+comp.length) 0 = x := by
    rw [List.getD_eq_getElem?_getD, List.getElem?_append_right (Nat.le_add_right _ _),
      Nat.add_sub_cancel_left, List.getElem?_append_right (Nat.le_refl _), Nat.sub_self]
    rfl
  have hend : scan (fun c => c == 0 || c == slashChar) (pre ++ (comp ++ x :: tail)) pre.length =
      some (pre.length+comp.length) := by
    rw [scan, List.drop_left]
    refine scanFrom_append (fun c hc => ?_) ?_
    · simp [hcomp c hc]
    · obtain rfl | rfl := hx
      · rfl
      · rfl
  have hnext : scan (fun c => c != slashChar) (pre ++ (comp ++ x :: tail))
      (pre.length+comp.length) = some (pre.length+comp.length+slashes.length) := by
    rw [scan, ← List.drop_drop, List.drop_left, List.drop_left, hrun]
    exact scanFrom_append (fun c hc => by simp [hslashes c hc]) (by simp [hy])
  have hname : cString ((pre ++ (comp ++ 0 :: tail)).drop pre.length) = comp := by
    rw [List.drop_left]
    exact cString_component fun c hc => (hcomp c hc).1
  have hfirst : ∃ c, (pre ++ (comp ++ x :: tail))[pre.length]? = some c ∧ c ≠ 0 := by
    obtain ⟨c,cs,rfl⟩ := List.exists_cons_of_ne_nil hne
    refine ⟨c, ?_, (hcomp c List.mem_cons_self).1⟩
    rw [List.getElem?_append_right (Nat.le_refl _), Nat.sub_self]
    rfl
  obtain ⟨c,hc,hc0⟩ := hfirst
  simp only [resolveBody, hc, if_neg hc0, hend, hset, hsaved, hname]
  split
  · rfl
  · cases fs.find nd comp with
    | none => rfl
    | some r =>
      cases r with
      | none => rfl
      | some next => simp only [hnext]

theorem resolveBody_end : resolveBody fs ⟨pre ++ 0 :: tail, pre.length, nd⟩ =
    .inr (some (if fs.isFile nd then some nd else none)) := by
  have hc : (pre ++ 0 :: tail)[pre.length]? = some 0 := by
    rw [List.getElem?_append_right (Nat.le_refl _), Nat.sub_self]
    rfl
  simp only [resolveBody, hc, if_pos]

end Round

theorem head_dropWhile {p : UInt8 → Bool} {xs : List UInt8} {c : UInt8}
    (h : (xs.dropWhile p).head? = some c) : p c = false := by
  have hc := List.head?_dropWhile_not p xs
  rw [h] at hc
  simpa using hc

theorem after_slashes (zeros : List UInt8) (hhead : rest.head? ≠ some slashChar) :
    ∃ y after, rest ++ 0 :: zeros = y :: after ∧ y ≠ slashChar := by
  cases rest with
  | nil => exact ⟨0, zeros, rfl, by decide⟩
  | cons y rest => exact ⟨y, rest ++ 0 :: zeros, rfl, fun h => hhead (congrArg some h)⟩

theorem leading_slashes (path : List UInt8) : ∃ slashes rest, path = slashes ++ rest ∧
    (∀ c ∈ slashes, c = slashChar) ∧ rest.head? ≠ some slashChar := by
  refine ⟨path.takeWhile (· == slashChar), path.dropWhile (· == slashChar),
    List.takeWhile_append_dropWhile.symm, fun c hc => ?_, fun h => ?_⟩
  · simpa using List.mem_takeWhile_imp hc
  · have hc := head_dropWhile h
    simp at hc

/-- A path that begins with a component: the component, the run of `/` after it, the rest. -/
theorem path_split (hne : rest ≠ []) (hhead : rest.head? ≠ some slashChar) :
    ∃ comp slashes rest', rest = comp ++ (slashes ++ rest') ∧ comp ≠ [] ∧ slashChar ∉ comp ∧
      (∀ c ∈ slashes, c = slashChar) ∧ (slashes = [] → rest' = []) ∧
      rest'.head? ≠ some slashChar := by
  obtain ⟨slashes,rest',hsplit,hs,hhead'⟩ := leading_slashes (rest.dropWhile (· != slashChar))
  refine ⟨rest.takeWhile (· != slashChar), slashes, rest', ?_, ?_, fun h => ?_, hs, fun h => ?_,
    hhead'⟩
  · rw [← hsplit, List.takeWhile_append_dropWhile]
  · obtain ⟨c,cs,rfl⟩ := List.exists_cons_of_ne_nil hne
    have hc : c ≠ slashChar := fun hc => hhead (congrArg some hc)
    rw [List.takeWhile_cons_of_pos (by simpa using hc)]
    exact List.cons_ne_nil _ _
  · have hbne := List.mem_takeWhile_imp h
    simp at hbne
  · rw [h, List.nil_append] at hsplit
    cases rest' with
    | nil => rfl
    | cons c cs =>
      have hc := head_dropWhile (congrArg List.head? hsplit)
      have hslash : c = slashChar := by simpa using hc
      exact absurd (congrArg some hslash) hhead'

theorem components_split {comp slashes rest' : List UInt8} (hne : comp ≠ [])
    (hcomp : slashChar ∉ comp) (hs : ∀ c ∈ slashes, c = slashChar)
    (hstop : slashes = [] → rest' = []) :
    components (comp ++ (slashes ++ rest')) = comp :: components rest' := by
  cases slashes with
  | nil =>
    rw [hstop rfl, List.nil_append, List.append_nil, components_end hcomp hne]
    rfl
  | cons c slashes =>
    rw [hs c List.mem_cons_self, List.cons_append, components_cons hcomp hne,
      components_slashes fun c hc => hs c (List.mem_cons_of_mem _ hc)]

theorem resolveBody_round {pre comp slashes rest' zeros : List UInt8} (hne : comp ≠ [])
    (hcomp : ∀ c ∈ comp, c ≠ 0 ∧ c ≠ slashChar) (hs : ∀ c ∈ slashes, c = slashChar)
    (hstop : slashes = [] → rest' = []) (hhead : rest'.head? ≠ some slashChar) :
    resolveBody fs ⟨pre ++ (comp ++ (slashes ++ rest') ++ 0 :: zeros), pre.length, nd⟩ =
      if !fs.isDir nd then .inr (some none)
      else match fs.find nd comp with
        | none => .inr none
        | some none => .inr (some none)
        | some (some next) => .inl ⟨pre ++ (comp ++ slashes) ++ (rest' ++ 0 :: zeros),
            (pre ++ (comp ++ slashes)).length, next⟩ := by
  obtain ⟨y,after,hy,hyne⟩ := after_slashes zeros hhead
  obtain ⟨x,tail,hx⟩ : ∃ x tail, slashes ++ y :: after = x :: tail :=
    List.exists_cons_of_ne_nil (by simp)
  have hx0 : x = 0 ∨ x = slashChar := by
    cases slashes with
    | nil =>
      rw [hstop rfl] at hy
      obtain ⟨rfl,-⟩ := List.cons.inj hy
      obtain ⟨rfl,-⟩ := List.cons.inj hx
      exact Or.inl rfl
    | cons c slashes =>
      obtain ⟨rfl,-⟩ := List.cons.inj hx
      exact Or.inr (hs c List.mem_cons_self)
  rw [List.append_assoc comp, List.append_assoc slashes, hy, hx,
    resolveBody_component hne hcomp hx0 hx.symm hs hyne, List.append_assoc pre,
    List.append_assoc comp slashes, hx, List.length_append, List.length_append, ← Nat.add_assoc]

theorem resolve_walks (pre zeros : List UInt8) (hrest : 0 ∉ rest)
    (hhead : rest.head? ≠ some slashChar) :
    Returns (resolveBody fs) ⟨pre ++ (rest ++ 0 :: zeros), pre.length, nd⟩
      (walk fs nd (components rest)) := by
  induction hn : rest.length using Nat.strongRecOn generalizing rest pre nd with
  | ind n ih =>
    by_cases hne : rest = []
    · subst hne
      exact returns_done resolveBody_end
    obtain ⟨comp,slashes,rest',rfl,hc,hcs,hs,hstop,hhead'⟩ := path_split hne hhead
    have hcomp (c : UInt8) (h : c ∈ comp) : c ≠ 0 ∧ c ≠ slashChar :=
      ⟨fun h0 => hrest (h0 ▸ List.mem_append_left _ h), fun h1 => hcs (h1 ▸ h)⟩
    have hrest' : 0 ∉ rest' := fun h =>
      hrest (List.mem_append_right _ (List.mem_append_right _ h))
    have hbody : resolveBody fs
        ⟨pre ++ (comp ++ (slashes ++ rest') ++ 0 :: zeros), pre.length, nd⟩ = _ :=
      resolveBody_round hc hcomp hs hstop hhead'
    rw [components_split hc hcs hs hstop, walk]
    split at hbody
    · rename_i hd
      rw [if_pos hd]
      exact returns_done hbody
    · rename_i hd
      rw [if_neg hd]
      cases hf : fs.find nd comp with
      | none =>
        rw [hf] at hbody
        exact returns_done hbody
      | some r =>
        rw [hf] at hbody
        cases r with
        | none => exact returns_done hbody
        | some next =>
          have hlen : rest'.length < n := by
            have hpos := List.length_pos_iff.mpr hc
            rw [← hn, List.length_append, List.length_append]
            omega
          exact (returns_next hbody).mpr (ih rest'.length hlen _ hrest' hhead' rfl)

/-! The string of the user. -/

/-- At the address the user has the path and the zero that ends it, all within reach, and
not too long for the buffer. -/
structure UserString (user : Nat → Option UInt8) (address : Nat) (path : List UInt8) : Prop where
  notNull : address ≠ 0
  noZero : 0 ∉ path
  short : path.length+1 < maxPath
  chars : ∀ (i : Nat) (h : i < path.length), user ((address+i) % 2^64) = some path[i]
  ends : user ((address+path.length) % 2^64) = some 0

section Copy
variable {user : Nat → Option UInt8} {address k : Nat} {written buffer : List UInt8}

theorem set_next (c : UInt8) : (written ++ List.replicate (k+1) 0).set written.length c =
    (written ++ [c]) ++ List.replicate k 0 := by
  rw [List.set_append_right _ _ (Nat.le_refl _), Nat.sub_self, List.replicate_succ,
    List.set_cons_zero, List.append_assoc]
  rfl

theorem copyLoop_true (written : List UInt8)
    (h : copyLoop user address (written ++ List.replicate (k+1) 0) k written.length = (true, buffer)) :
    ∃ path zeros, buffer = written ++ (path ++ 0 :: zeros) ∧ 0 ∉ path ∧ path.length < k ∧
      (∀ (i : Nat) (hi : i < path.length),
        user ((address+(written.length+i)) % 2^64) = some path[i]) ∧
      user ((address+(written.length+path.length)) % 2^64) = some 0 := by
  induction k generalizing written with
  | zero => cases h
  | succ k ih =>
    rw [copyLoop] at h
    cases hu : user ((address+written.length) % 2^64) with
    | none =>
      rw [hu] at h
      cases h
    | some c =>
      rw [hu] at h
      dsimp only at h
      rw [set_next] at h
      by_cases hc : c = 0
      · subst hc
        rw [if_pos rfl] at h
        refine ⟨[], List.replicate (k+1) 0, ?_, by simp, by simp, by simp, hu⟩
        rw [← (Prod.mk.inj h).2, List.append_assoc]
        rfl
      · rw [if_neg hc, show written.length+1 = (written ++ [c]).length by simp] at h
        obtain ⟨path,zeros,hbuf,h0,hlen,hchars,hend⟩ := ih (written ++ [c]) h
        simp only [List.length_append, List.length_singleton] at hchars hend
        refine ⟨c :: path, zeros, ?_, ?_, by simpa using hlen, fun i hi => ?_, ?_⟩
        · rw [hbuf, List.append_assoc]
          rfl
        · rw [List.mem_cons, not_or]
          exact ⟨fun hz => hc hz.symm, h0⟩
        · cases i with
          | zero => exact hu
          | succ i =>
            rw [List.getElem_cons_succ, ← hchars i (Nat.lt_of_succ_lt_succ hi), Nat.add_assoc,
              Nat.add_comm 1]
        · rw [List.length_cons, ← hend, Nat.add_assoc, Nat.add_comm 1]

theorem copyUserString_true
    (h : copyUserString (List.replicate maxPath 0) user address = (true, buffer)) :
    ∃ path zeros, buffer = path ++ 0 :: zeros ∧ UserString user address path := by
  rw [copyUserString, List.length_replicate] at h
  split at h
  · cases h
  · rename_i hn
    obtain ⟨path,zeros,hbuf,h0,hlen,hchars,hend⟩ := copyLoop_true [] h
    simp only [List.length_nil, Nat.zero_add] at hchars hend
    exact ⟨path, zeros, hbuf, fun ha => hn (Or.inr ha), h0, Nat.succ_lt_succ hlen, hchars, hend⟩

end Copy

section Resolve
variable {user : Nat → Option UInt8} {address : Nat} {path : List UInt8}

theorem components_ne_nil (hne : rest ≠ []) (hhead : rest.head? ≠ some slashChar) :
    components rest ≠ [] := by
  obtain ⟨comp,slashes,rest',rfl,hc,hcs,hs,hstop,-⟩ := path_split hne hhead
  rw [components_split hc hcs hs hstop]
  exact List.cons_ne_nil _ _

theorem resolvePath_iff {zeros : List UInt8} {r : Option (Option ν)} (h0 : 0 ∉ path)
    (hc : copyUserString (List.replicate maxPath 0) user address = (true, path ++ 0 :: zeros)) :
    ResolvePath fs user address r ↔
      r = if components path = [] then some none else walk fs fs.root (components path) := by
  obtain ⟨slashes,rest,rfl,hs,hhead⟩ := leading_slashes path
  have hrest : 0 ∉ rest := fun h => h0 (List.mem_append_right _ h)
  obtain ⟨y,after,hy,hyne⟩ := after_slashes zeros hhead
  have hscan : scan (fun c => c != slashChar) (slashes ++ (rest ++ 0 :: zeros)) 0 =
      some slashes.length := by
    rw [scan, List.drop_zero, hy, scanFrom_append (fun c hc => by simp [hs c hc]) (by simp [hyne]),
      Nat.zero_add]
  have hfirst : (slashes ++ (rest ++ 0 :: zeros))[slashes.length]? = some y := by
    rw [List.getElem?_append_right (Nat.le_refl _), Nat.sub_self, hy]
    rfl
  rw [List.append_assoc] at hc
  rw [ResolvePath, hc, components_slashes hs]
  simp only [ResolveCopied, hscan, hfirst, Option.some.injEq]
  by_cases hne : rest = []
  · subst hne
    obtain ⟨rfl,-⟩ := List.cons.inj hy
    rw [if_pos (by simp)]
    rfl
  · have hy0 : y ≠ 0 := by
      obtain ⟨c,cs,rfl⟩ := List.exists_cons_of_ne_nil hne
      obtain ⟨rfl,-⟩ := List.cons.inj hy
      exact fun h => hrest (h ▸ List.mem_cons_self)
    rw [if_neg hy0, if_neg (components_ne_nil hne hhead)]
    have hret : Returns (resolveBody fs) ⟨slashes ++ (rest ++ 0 :: zeros), slashes.length, fs.root⟩
        (walk fs fs.root (components rest)) := resolve_walks slashes zeros hrest hhead
    exact ⟨fun h => h.unique hret, fun h => h ▸ hret⟩

theorem resolvePath_refused {r : Option (Option ν)} {buffer : List UInt8}
    (hc : copyUserString (List.replicate maxPath 0) user address = (false, buffer)) :
    ResolvePath fs user address r ↔ r = some none := by
  rw [ResolvePath, hc, ResolveCopied]

theorem resolvePath_some {zeros : List UInt8} {last : ν} (h0 : 0 ∉ path)
    (hc : copyUserString (List.replicate maxPath 0) user address = (true, path ++ 0 :: zeros)) :
    ResolvePath fs user address (some (some last)) ↔
      components path ≠ [] ∧ LeadsTo fs fs.root (components path) last ∧ fs.isFile last = true := by
  rw [resolvePath_iff h0 hc, ← walk_some]
  by_cases hn : components path = []
  · simp [hn]
  · rw [if_neg hn, and_iff_right hn]
    exact eq_comm

/-- For a string that `copy_user_string` accepts, `resolve_path` has one result: the last
node, where the path has a component, lookup leads from the root along its components
through directories, and the last node is a regular file; no return, where a lookup on the
way does not return; and the null reference in every other case. -/
theorem resolve_path_walk (fs : FileTree ν) (user : Nat → Option UInt8) (address : Nat)
    (hc : (copyUserString (List.replicate maxPath 0) user address).1 = true) :
    ∃ path, UserString user address path ∧
      (∃! r, ResolvePath fs user address r) ∧
      (∀ last, ResolvePath fs user address (some (some last)) ↔
        components path ≠ [] ∧ LeadsTo fs fs.root (components path) last ∧
          fs.isFile last = true) ∧
      (ResolvePath fs user address none ↔ Stuck fs fs.root (components path)) ∧
      (ResolvePath fs user address (some none) ↔
        ¬ (∃ last, components path ≠ [] ∧ LeadsTo fs fs.root (components path) last ∧
          fs.isFile last = true) ∧ ¬ Stuck fs fs.root (components path)) := by
  cases hbuf : copyUserString (List.replicate maxPath 0) user address with
  | mk ok buffer =>
  rw [hbuf] at hc
  obtain rfl : ok = true := hc
  obtain ⟨path,zeros,rfl,hp⟩ := copyUserString_true hbuf
  have hiff {r : Option (Option ν)} : ResolvePath fs user address r ↔
      r = if components path = [] then some none else walk fs fs.root (components path) :=
    resolvePath_iff hp.noZero hbuf
  have hsome (last : ν) : ResolvePath fs user address (some (some last)) ↔
      components path ≠ [] ∧ LeadsTo fs fs.root (components path) last ∧ fs.isFile last = true :=
    resolvePath_some hp.noZero hbuf
  have hnone : ResolvePath fs user address none ↔ Stuck fs fs.root (components path) := by
    rw [hiff]
    by_cases hn : components path = []
    · rw [if_pos hn, hn]
      exact iff_of_false (by simp) not_stuck_nil
    · rw [if_neg hn, ← walk_none]
      exact eq_comm
  have hone : ∃! r, ResolvePath fs user address r := by
    simp only [hiff]
    exact existsUnique_eq
  refine ⟨path, hp, hone, hsome, hnone, ?_⟩
  simp only [← hnone, ← hsome]
  simp only [hiff]
  cases (if components path = [] then some none else walk fs fs.root (components path)) with
  | none => simp
  | some r =>
    cases r with
    | none => simp
    | some last => simp

end Resolve

/-- A root with a directory `d` in which there is a file `f`. -/
def smallTree : FileTree Nat where
  root := 0
  isDir nd := nd < 2
  isFile nd := nd == 2
  find nd name := some (if nd = 0 ∧ name = [100] then some 1
    else if nd = 1 ∧ name = [102] then some 2 else none)

/-- A user with the string `//d//f` at address 4096. -/
def smallUser (a : Nat) : Option UInt8 := [47, 47, 100, 47, 47, 102, 0][a-4096]?

set_option maxRecDepth 2000 in
/-- The file is found, and nothing else. -/
theorem resolve_path_walk_small : ∃ path, UserString smallUser 4096 path ∧
    LeadsTo smallTree 0 (components path) 2 ∧
    ∀ r, ResolvePath smallTree smallUser 4096 r ↔ r = some (some 2) := by
  have hcopy : copyUserString (List.replicate maxPath 0) smallUser 4096 =
      (true, [47, 47, 100, 47, 47, 102] ++ 0 :: List.replicate 249 0) := by
    decide +kernel
  obtain ⟨path,hpath,hone,hsome,-⟩ := resolve_path_walk smallTree smallUser 4096 (by rw [hcopy])
  have hfile : ResolvePath smallTree smallUser 4096 (some (some 2)) :=
    (resolvePath_some (by decide) hcopy).mpr
      ⟨by decide, .step rfl rfl (.step rfl rfl (.here 2)), rfl⟩
  refine ⟨path, hpath, ((hsome 2).mp hfile).2.1, fun r => ⟨fun hr => hone.unique hr hfile, ?_⟩⟩
  rintro rfl
  exact hfile

/-! The file system on the disk. -/

theorem find_unique {fs : FileSystem} {dir : Inode} {name : List UInt8}
    {a b : Option (Option Inode)} (ha : fs.Find dir name a) (hb : fs.Find dir name b) : a = b := by
  obtain ⟨k,hk,rfl⟩ := ha
  obtain ⟨l,hl,rfl⟩ := hb
  rw [Lookups.find_unique hk hl]

open Classical in
/-- Lookup on the disk; `none` where it trips an assertion or walks over a directory for ever. -/
noncomputable def onDisk (fs : FileSystem) : FileTree Inode where
  root := fs.root
  isDir := Inode.isDir
  isFile := Inode.isFile
  find dir name := if h : ∃ r, fs.Find dir name r then h.choose else none

theorem onDisk_find {fs : FileSystem} {dir : Inode} {name : List UInt8} {r : Option Inode} :
    (onDisk fs).find dir name = some r ↔ fs.Find dir name (some r) := by
  simp only [onDisk]
  split
  · rename_i h
    exact ⟨fun hr => hr ▸ h.choose_spec, fun hr => find_unique h.choose_spec hr⟩
  · rename_i h
    exact iff_of_false (by simp) fun hr => h ⟨_, hr⟩

/-- `Ext2::find` leads from each directory to the next. -/
inductive FindsTo (fs : FileSystem) : Inode → List (List UInt8) → Inode → Prop
  | here (nd : Inode) : FindsTo fs nd [] nd
  | step {dir next last : Inode} {c : List UInt8} {cs : List (List UInt8)} : dir.isDir = true →
      fs.Find dir c (some (some next)) → FindsTo fs next cs last → FindsTo fs dir (c :: cs) last

theorem leadsTo_onDisk {fs : FileSystem} {dir last : Inode} {cs : List (List UInt8)} :
    LeadsTo (onDisk fs) dir cs last ↔ FindsTo fs dir cs last := by
  constructor
  · intro h
    induction h with
    | here nd => exact .here nd
    | step hdir hfind _ ih => exact .step hdir (onDisk_find.mp hfind) ih
  · intro h
    induction h with
    | here nd => exact .here nd
    | step hdir hfind _ ih => exact .step hdir (onDisk_find.mpr hfind) ih

/-- On the disk, `resolve_path` returns a regular file exactly where lookup leads to it, and the
null reference for a string it cannot copy. -/
theorem resolvePath_onDisk (fs : FileSystem) (user : Nat → Option UInt8) (address : Nat) :
    let (ok, buffer) := copyUserString (List.replicate maxPath 0) user address
    (ok = false → ∀ r, ResolvePath (onDisk fs) user address r ↔ r = some none) ∧
    (ok = true → ∃ path zeros, buffer = path ++ 0 :: zeros ∧ UserString user address path ∧
      ∀ last, ResolvePath (onDisk fs) user address (some (some last)) ↔
        components path ≠ [] ∧ FindsTo fs fs.root (components path) last ∧ last.isFile = true) := by
  cases hc : copyUserString (List.replicate maxPath 0) user address with
  | mk ok buffer =>
  refine ⟨?_, ?_⟩
  · rintro rfl r
    exact resolvePath_refused hc
  · rintro rfl
    obtain ⟨path,zeros,rfl,hp⟩ := copyUserString_true hc
    refine ⟨path, zeros, rfl, hp, fun last => ?_⟩
    rw [resolvePath_some hp.noZero hc, leadsTo_onDisk]
    rfl

end NetKernel.Paths
