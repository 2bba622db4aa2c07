import Mathlib.Logic.Function.Basic
import Mathlib.Data.List.Nodup

/-! Linked lists threaded through link functions, ended by a null pointer: doubly linked
lists, where null is also the predecessor of the first node, and stacks. -/
namespace NetKernel.LinkedList
open Function
variable {α : Type*}

/-- From `head`, whose predecessor is `p`, the links run through `l` and end at `last`. -/
def Segment (null : α) (next prev : α → α) : α → α → List α → α → Prop
  | _, head, [], last => head = last
  | p, head, x :: xs, last =>
    head = x ∧ x ≠ null ∧ prev x = p ∧ Segment null next prev x (next x) xs last

/-- The list from `head`, ended by null on both sides. -/
def Links (null : α) (next prev : α → α) (head : α) (l : List α) : Prop :=
  Segment null next prev null head l null

/-- The node before the end of a segment that starts after `p`. -/
def before (p : α) : List α → α
  | [] => p
  | y :: ys => before y ys

theorem before_mem (y : α) (ys : List α) : before y ys ∈ y :: ys := by
  induction ys generalizing y with
  | nil => exact List.mem_singleton.mpr rfl
  | cons z zs ih => exact List.mem_cons_of_mem _ (ih z)

variable {null : α} {next prev : α → α} {p head last : α}

theorem Segment.ne_null {l : List α} (h : Segment null next prev p head l last) : null ∉ l := by
  induction l generalizing p head with
  | nil => exact List.not_mem_nil
  | cons x xs ih =>
    obtain ⟨-,hx,-,hxs⟩ := h
    rw [List.mem_cons, not_or]
    exact ⟨hx.symm, ih hxs⟩

theorem Segment.congr {l : List α} {next' prev' : α → α}
    (h : Segment null next prev p head l last) (hn : ∀ x ∈ l, next' x = next x)
    (hp : ∀ x ∈ l, prev' x = prev x) : Segment null next' prev' p head l last := by
  induction l generalizing p head with
  | nil => exact h
  | cons x xs ih =>
    obtain ⟨rfl,hx,hpx,hxs⟩ := h
    refine ⟨rfl, hx, by rw [hp _ List.mem_cons_self, hpx], ?_⟩
    rw [hn _ List.mem_cons_self]
    exact ih hxs (fun y hy => hn y (List.mem_cons_of_mem _ hy))
      (fun y hy => hp y (List.mem_cons_of_mem _ hy))

theorem segment_append {l r : List α} : Segment null next prev p head (l ++ r) last ↔
    ∃ m, Segment null next prev p head l m ∧ Segment null next prev (before p l) m r last := by
  induction l generalizing p head with
  | nil =>
    constructor
    · exact fun h => ⟨head, rfl, h⟩
    · rintro ⟨m,rfl,h⟩
      exact h
  | cons x xs ih =>
    simp only [List.cons_append, Segment, ih, before]
    constructor
    · rintro ⟨rfl,hx,hp,m,hl,hr⟩
      exact ⟨m, ⟨rfl, hx, hp, hl⟩, hr⟩
    · rintro ⟨m,⟨rfl,hx,hp,hl⟩,hr⟩
      exact ⟨rfl, hx, hp, m, hl, hr⟩

theorem Segment.head_mem {l : List α} (h : Segment null next prev p head l null) :
    head = null ∨ head ∈ l := by
  cases l with
  | nil => exact Or.inl h
  | cons x xs => exact Or.inr (h.1 ▸ List.mem_cons_self)

theorem Links.neighbours {l r : List α} {x : α} (h : Links null next prev head (l ++ x :: r)) :
    (prev x = null ∨ prev x ∈ l) ∧ (next x = null ∨ next x ∈ r) := by
  obtain ⟨m,-,rfl,-,hp,hr⟩ := segment_append.mp h
  refine ⟨?_, hr.head_mem⟩
  rw [hp]
  cases l with
  | nil => exact Or.inl rfl
  | cons y ys => exact Or.inr (before_mem y ys)

section Update
variable [DecidableEq α]

theorem Segment.retarget {l : List α} (h : Segment null next prev p head l last) (hd : l.Nodup)
    (m : α) : Segment null (if l = [] then next else update next (before p l) m) prev p
      (if l = [] then m else head) l m := by
  induction l generalizing p head with
  | nil => exact rfl
  | cons y ys ih =>
    obtain ⟨rfl,hy,hp,hys⟩ := h
    obtain ⟨hnot,hd'⟩ := List.nodup_cons.mp hd
    rw [if_neg (List.cons_ne_nil _ _), if_neg (List.cons_ne_nil _ _)]
    refine ⟨rfl, hy, hp, ?_⟩
    have hih := ih hys hd'
    cases ys with
    | nil => exact update_self _ _ _
    | cons z zs =>
      rw [if_neg (List.cons_ne_nil _ _), if_neg (List.cons_ne_nil _ _)] at hih
      have hne : head ≠ before z zs := fun he => hnot (he ▸ before_mem z zs)
      rw [before, before, update_of_ne hne]
      exact hih

theorem Segment.reattach {l : List α} (h : Segment null next prev p head l null) (hd : l.Nodup)
    (q : α) : Segment null next (if head = null then prev else update prev head q) q head l
      null := by
  cases l with
  | nil => exact h
  | cons x xs =>
    obtain ⟨rfl,hx,-,hxs⟩ := h
    have hnot := (List.nodup_cons.mp hd).1
    rw [if_neg hx]
    refine ⟨rfl, hx, update_self _ _ _, hxs.congr (fun _ _ => rfl) fun y hy => ?_⟩
    exact update_of_ne (by rintro rfl; exact hnot hy) _ _

/-- Unlinking a node: its predecessor, or the head, takes its successor, and its
successor takes its predecessor. -/
theorem Links.unlink {l r : List α} {x : α} (h : Links null next prev head (l ++ x :: r))
    (hd : (l ++ x :: r).Nodup) :
    Links null (if prev x = null then next else update next (prev x) (next x))
      (if next x = null then prev else update prev (next x) (prev x))
      (if prev x = null then next x else head) (l ++ r) := by
  obtain ⟨m,hl,hr⟩ := segment_append.mp h
  obtain ⟨rfl,-,hp,hr⟩ := hr
  have hdl : l.Nodup := hd.of_append_left
  have hdr : r.Nodup := (List.nodup_cons.mp hd.of_append_right).2
  have hdisj : ∀ a ∈ l, a ∉ r := fun a ha hr =>
    (List.nodup_append.mp hd).2.2 a ha a (List.mem_cons_of_mem _ hr) rfl
  have hnil : prev m = null ↔ l = [] := by
    rw [hp]
    cases l with
    | nil => exact ⟨fun _ => rfl, fun _ => rfl⟩
    | cons y ys =>
      refine ⟨fun he => absurd (before_mem y ys) ?_, fun he => absurd he (List.cons_ne_nil _ _)⟩
      rw [show before y ys = null from he]
      exact hl.ne_null
  simp only [hnil]
  refine segment_append.mpr ⟨next m, (hl.retarget hdl (next m)).congr ?_ ?_,
    (hr.reattach hdr (before null l)).congr ?_ ?_⟩
  · intro a _
    rw [hp]
  · intro a ha
    split
    · rfl
    · rename_i hn
      have hm := hr.head_mem.resolve_left hn
      exact update_of_ne (fun he => hdisj a ha (by rw [he]; exact hm)) _ _
  · intro a ha
    split
    · rfl
    · rename_i hne
      obtain ⟨y,ys,rfl⟩ := List.exists_cons_of_ne_nil hne
      refine update_of_ne (fun he => hdisj a ?_ ha) _ _
      rw [he, hp]
      exact before_mem y ys
  · intro a _
    rw [hp]

theorem Links.push {l : List α} (h : Links null next prev head l) (hd : l.Nodup) {x : α}
    (hx : x ≠ null) (hnot : x ∉ l) :
    Links null (update next x head) (if head = null then update prev x null
      else update (update prev x null) head x) x (x :: l) := by
  have hne : ∀ y ∈ l, y ≠ x := by rintro y hy rfl; exact hnot hy
  have hl : Segment null (update next x head) (update prev x null) null head l null :=
    Segment.congr h (fun y hy => update_of_ne (hne y hy) _ _) fun y hy =>
      update_of_ne (hne y hy) _ _
  refine ⟨rfl, hx, ?_, ?_⟩
  · split
    · exact update_self _ _ _
    · rename_i hn
      have hm := Segment.head_mem h |>.resolve_left hn
      rw [update_of_ne (hne head hm).symm, update_self]
  · rw [update_self]
    exact hl.reattach hd x

end Update

/-! Stacks: one link, read and written at the top alone. -/

/-- From `head` the links run through `l` and end at null. -/
def Chain (null : α) (next : α → α) : α → List α → Prop
  | head, [] => head = null
  | head, x :: xs => head = x ∧ x ≠ null ∧ Chain null next (next x) xs

theorem Chain.congr {l : List α} {next' : α → α} (h : Chain null next head l)
    (hn : ∀ x ∈ l, next' x = next x) : Chain null next' head l := by
  induction l generalizing head with
  | nil => exact h
  | cons x xs ih =>
    obtain ⟨rfl,hx,hxs⟩ := h
    refine ⟨rfl, hx, ?_⟩
    rw [hn _ List.mem_cons_self]
    exact ih hxs fun y hy => hn y (List.mem_cons_of_mem _ hy)

theorem Chain.pop {l : List α} (h : Chain null next head l) (hn : head ≠ null) :
    ∃ xs, l = head :: xs ∧ Chain null next (next head) xs := by
  cases l with
  | nil => exact absurd h hn
  | cons x xs =>
    obtain ⟨rfl,-,hxs⟩ := h
    exact ⟨xs, rfl, hxs⟩

theorem Chain.snoc [DecidableEq α] {l : List α} {x q : α} (h : Chain null next head l)
    (hd : l.Nodup) (hx : x ≠ null) (hnot : x ∉ l) (hnull : next x = null)
    (hq : l.getLast? = some q) : Chain null (update next q x) head (l ++ [x]) := by
  induction l generalizing head with
  | nil => cases hq
  | cons y ys ih =>
    obtain ⟨rfl,hy,hys⟩ := h
    obtain ⟨hnot_y,hd'⟩ := List.nodup_cons.mp hd
    have hxy : x ≠ head := fun he => hnot (he ▸ List.mem_cons_self)
    cases ys with
    | nil =>
      obtain rfl : head = q := Option.some.inj hq
      refine ⟨rfl, hy, update_self .., hx, ?_⟩
      exact (update_of_ne hxy ..).trans hnull
    | cons z zs =>
      rw [List.getLast?_cons_cons] at hq
      have hne : head ≠ q := fun he => hnot_y (he ▸ List.mem_of_getLast? hq)
      refine ⟨rfl, hy, ?_⟩
      rw [update_of_ne hne]
      exact ih hys hd' (fun hm => hnot (List.mem_cons_of_mem _ hm)) hq

theorem Chain.unique {l l' : List α} (h : Chain null next head l) (h' : Chain null next head l') :
    l = l' := by
  induction l generalizing head l' with
  | nil =>
    cases l' with
    | nil => rfl
    | cons x xs => exact absurd (h'.1.symm.trans h) h'.2.1
  | cons x xs ih =>
    obtain ⟨rfl,hx,hxs⟩ := h
    cases l' with
    | nil => exact absurd h' hx
    | cons y ys =>
      obtain ⟨rfl,-,hys⟩ := h'
      rw [ih hxs hys]

theorem Chain.nil_of_null {l : List α} (h : Chain null next null l) : l = [] := by
  cases l with
  | nil => rfl
  | cons x xs => exact absurd h.1.symm h.2.1

theorem Chain.null_iff {l : List α} (h : Chain null next head l) : head = null ↔ l = [] := by
  constructor
  · rintro rfl
    exact h.nil_of_null
  · rintro rfl
    exact h

theorem Chain.next_last {l : List α} {q : α} (h : Chain null next head l)
    (hq : l.getLast? = some q) : next q = null := by
  induction l generalizing head with
  | nil => cases hq
  | cons x xs ih =>
    obtain ⟨rfl,-,hxs⟩ := h
    cases xs with
    | nil =>
      obtain rfl : head = q := Option.some.inj hq
      exact hxs
    | cons y ys =>
      rw [List.getLast?_cons_cons] at hq
      exact ih hxs hq

/-! Several chains through one link function, without a common node. -/

structure Chains {ι : Type*} (null : α) (next : α → α) (head : ι → α) (line : ι → List α) :
    Prop where
  chain : ∀ i, Chain null next (head i) (line i)
  nodup : ∀ i, (line i).Nodup
  apart : ∀ i j x, x ∈ line i → x ∈ line j → i = j

section Chains
variable {ι : Type*} [DecidableEq ι] {heads : ι → α} {line : ι → List α} {i j : ι}

theorem Chains.replace (h : Chains null next heads line) {next' : α → α} {l : List α}
    (hn : ∀ k, k ≠ i → ∀ x ∈ line k, next' x = next x) (hc : Chain null next' head l)
    (hl : l.Nodup) (hfree : ∀ k, k ≠ i → ∀ x ∈ l, x ∉ line k) :
    Chains null next' (update heads i head) (update line i l) := by
  constructor
  · intro k
    by_cases hk : k = i
    · subst hk
      rwa [update_self, update_self]
    · rw [update_of_ne hk, update_of_ne hk]
      exact (h.chain k).congr (hn k hk)
  · intro k
    by_cases hk : k = i
    · subst hk
      rwa [update_self]
    · rw [update_of_ne hk]
      exact h.nodup k
  · intro k m x hxk hxm
    by_cases hk : k = i <;> by_cases hm : m = i
    · rw [hk, hm]
    · rw [hk, update_self] at hxk
      rw [update_of_ne hm] at hxm
      exact absurd hxm (hfree m hm x hxk)
    · rw [update_of_ne hk] at hxk
      rw [hm, update_self] at hxm
      exact absurd hxk (hfree k hk x hxm)
    · rw [update_of_ne hk] at hxk
      rw [update_of_ne hm] at hxm
      exact h.apart k m x hxk hxm

/-- A node on no chain becomes the last of one: its head, or behind the last so far. -/
theorem Chains.append [DecidableEq α] (h : Chains null next heads line) {x last : α}
    (hx : x ≠ null) (hfree : ∀ k, x ∉ line k) (hlast : (line i).getLastD null = last) :
    Chains null
      (if heads i = null then update next x null else update (update next x null) last x)
      (update heads i (if heads i = null then x else heads i))
      (update line i (line i ++ [x])) := by
  have hother : ∀ k, ∀ y ∈ line k, update next x null y = next y := fun k y hy =>
    update_of_ne (by rintro rfl; exact hfree k hy) _ _
  have hnew : ∀ k, k ≠ i → ∀ y ∈ line i ++ [x], y ∉ line k := by
    intro k hk y hy hyk
    obtain hy | hy := List.mem_append.mp hy
    · exact hk (h.apart k i y hyk hy)
    · rw [List.mem_singleton.mp hy] at hyk
      exact hfree k hyk
  have hnodup : (line i ++ [x]).Nodup := by
    refine List.nodup_append.mpr ⟨h.nodup i, List.nodup_singleton x, fun a ha b hb he => ?_⟩
    rw [List.mem_singleton.mp hb] at he
    exact hfree i (he ▸ ha)
  by_cases hi : heads i = null
  · rw [if_pos hi, if_pos hi]
    have hnil : line i = [] := (h.chain i).null_iff.mp hi
    refine h.replace (fun k _ => hother k) ?_ hnodup hnew
    rw [hnil]
    exact ⟨rfl, hx, update_self ..⟩
  · rw [if_neg hi, if_neg hi]
    have hne : line i ≠ [] := fun he => hi ((h.chain i).null_iff.mpr he)
    have hq : (line i).getLast? = some last := by
      rw [← hlast, List.getLastD_eq_getLast?, List.getLast?_eq_some_getLast hne, Option.getD_some]
    refine h.replace (fun k hk y hy => ?_) ?_ hnodup hnew
    · rw [update_of_ne, hother k y hy]
      rintro rfl
      exact hk (h.apart k i y hy (List.mem_of_getLast? hq))
    · exact ((h.chain i).congr (hother i)).snoc (h.nodup i) hx (hfree i) (update_self ..) hq

theorem Chains.pop (h : Chains null next heads line) (hn : heads i ≠ null) :
    ∃ xs, line i = heads i :: xs ∧
      Chains null next (update heads i (next (heads i))) (update line i xs) := by
  obtain ⟨xs,hxs,hc⟩ := (h.chain i).pop hn
  have hsub : ∀ x ∈ xs, x ∈ line i := fun x hx => hxs ▸ List.mem_cons_of_mem _ hx
  have hnodup : xs.Nodup := (List.nodup_cons.mp (hxs ▸ h.nodup i)).2
  refine ⟨xs, hxs, h.replace (fun _ _ _ _ => rfl) hc hnodup fun k hk x hx hxk => ?_⟩
  exact hk (h.apart k i x hxk (hsub x hx))

theorem Chains.clear (h : Chains null next heads line) :
    Chains null next (update heads i null) (update line i []) :=
  h.replace (fun _ _ _ _ => rfl) rfl List.nodup_nil fun _ _ _ hx => nomatch hx

theorem Chains.move (h : Chains null next heads line) :
    Chains null next (update (update heads i null) j (heads i))
      (update (update line i []) j (line i)) := by
  refine h.clear.replace (fun _ _ _ _ => rfl) (h.chain i) (h.nodup i) fun k hk x hx hxk => ?_
  by_cases hki : k = i
  · rw [hki, update_self] at hxk
    exact nomatch hxk
  · rw [update_of_ne hki] at hxk
    exact hki (h.apart k i x hxk hx)

end Chains

end NetKernel.LinkedList
