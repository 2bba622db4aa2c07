import NetKernel.Lib.LinkedList
import NetKernel.Lib.Loops
import NetKernel.Memory.FilePages

/-! The list of private VMEs across a fork: the thread-local words that `TCB::alloc` gives
the child, and `clone_vme_list` over them. A pointer is a number, and 0 is `nullptr`. -/
namespace NetKernel.ForkVmes
open Function LinkedList Loops Vmes
open Blocks (BlockIo)
open Frames (Ram)

/-- The words from `__tls_start__` to `__tls_end__`, with the two thread-local variables of
the kernel, which both start as `nullptr`. -/
structure Template where
  size : Nat
  word : Fin size → Nat
  vmes : Fin size
  currentProcess : Fin size
  apart : vmes ≠ currentProcess
  vmes_null : word vmes = 0
  currentProcess_null : word currentProcess = 0

/-- The thread-local words of a thread. -/
abbrev Image (T : Template) : Type := Fin T.size → Nat

/-- `TCB::alloc`, which copies the template over what `malloc` gave. -/
def tcbAlloc (T : Template) (mem : Image T) : Image T :=
  (List.finRange T.size).foldl (fun mem i => update mem i (T.word i)) mem

/-- The VMEs on the heap with their links, and the pointers that `new` is going to return. -/
structure Memory (ν : Type*) where
  vme : Nat → Vme ν
  next : Nat → Nat
  pool : List Nat

variable {ν : Type*}

/-- `new VME()`; `none` is the panic of `operator new`. -/
def Memory.newVme (m : Memory ν) : Option (Nat × Memory ν) :=
  match m.pool with
  | [] => none
  | copy :: pool =>
    some (copy, ⟨update m.vme copy ⟨0, 0, none, 0, false⟩, update m.next copy 0, pool⟩)

/-- Where `clone_vme_list` is. No `tail` is `&copy_head`, else it is the `next` of a copy. -/
structure Cloning (ν : Type*) where
  mem : Memory ν
  copyHead : Nat
  tail : Option Nat
  head : Nat

/-- `*tail = copy`. -/
def Cloning.link (s : Cloning ν) (copy : Nat) : Cloning ν :=
  match s.tail with
  | none => { s with copyHead := copy }
  | some last => { s with mem := { s.mem with next := update s.mem.next last copy } }

/-- A round of the loop of `clone_vme_list`. -/
def cloneRound (s : Cloning ν) : Cloning ν ⊕ Option (Memory ν × Nat) :=
  if s.head = 0 then .inr (some (s.mem, s.copyHead))
  else
    match s.mem.newVme with
    | none => .inr none
    | some (copy, mem) =>
      let filled := { mem with
        vme := update mem.vme copy (mem.vme s.head)
        next := update mem.next copy 0 }
      let linked := { s with mem := filled }.link copy
      .inl { linked with tail := some copy, head := linked.mem.next s.head }

def cloneStart (m : Memory ν) (head : Nat) : Cloning ν := ⟨m, 0, none, head⟩

/-- `clone_vme_list` in so many rounds: memory and the head of the copy. -/
def cloneVmeList (fuel : Nat) (m : Memory ν) (head : Nat) : Option (Memory ν × Nat) :=
  (loop cloneRound fuel (cloneStart m head)).join

/-! Threads and their fork. -/

structure Thread (T : Template) where
  image : Image T
  cr3 : Nat

structure Kernel (T : Template) (ν : Type*) where
  mem : Memory ν
  threads : Nat → Thread T
  ram : Ram
  stock : List Nat

variable {T : Template}

def Kernel.put (k : Kernel T ν) (t : Nat) (thread : Thread T) : Kernel T ν :=
  { k with threads := update k.threads t thread }

def Kernel.setLocal (k : Kernel T ν) (t : Nat) (slot : Fin T.size) (value : Nat) : Kernel T ν :=
  let me := k.threads t
  k.put t { me with image := update me.image slot value }

/-- `VMM::fork_from`, run in the thread `child`. -/
def forkFrom (fuel child sourceCr3 : Nat) (k : Kernel T ν) : Option (Kernel T ν) :=
  let me := k.threads child
  match cloneVmeList fuel k.mem (me.image T.vmes) with
  | none => none
  | some (mem, head) =>
    (Fork.forkFrom sourceCr3 me.cr3 (k.ram, k.stock)).map fun (ram, stock) =>
      { k.setLocal child T.vmes head with mem := mem, ram := ram, stock := stock }

/-- `VMM::init_thread`, run in the thread `child`, whose lower half stays empty. -/
def initThread (child commonCr3 : Nat) (k : Kernel T ν) : Option (Kernel T ν) :=
  match PageTables.alloc k.ram k.stock with
  | none => none
  | some (cr3, ram, stock) =>
    let table := fun i => if 256 ≤ i ∧ i < 512 then ram commonCr3 i else ram cr3 i
    some { k.put child { k.threads child with cr3 := cr3 } with
      ram := update ram cr3 table
      stock := stock }

/-- `make_thread`, as far as the words of the new thread, at an address from `malloc`. -/
def makeThread (child : Nat) (k : Kernel T ν) : Kernel T ν :=
  k.put child { k.threads child with image := tcbAlloc T (k.threads child).image }

/-- The system call `fork` of the thread `parent`, up to the `ready.down()` in the new
thread `child`, with `process` for its `current_process`. -/
def fork (fuel parent child process commonCr3 : Nat) (k : Kernel T ν) : Option (Kernel T ν) :=
  (initThread child commonCr3 (makeThread child k)).bind fun k' =>
    forkFrom fuel child (k.threads parent).cr3 (k'.setLocal child T.currentProcess process)

/-! The copy of a list. -/

variable {m : Memory ν} {s : Cloning ν} {head : Nat} {ps qs : List Nat}

/-- The copies of `qs` are made, those of `ps` are still to come. -/
structure Halfway (s : Cloning ν) (ps qs : List Nat) : Prop where
  source : Chain 0 s.mem.next s.head ps
  target : Chain 0 s.mem.next s.copyHead qs
  tail : s.tail = qs.getLast?
  nodup : (qs ++ s.mem.pool).Nodup
  pos : 0 ∉ s.mem.pool
  apart : ∀ p ∈ ps, p ∉ qs ∧ p ∉ s.mem.pool

theorem cloneRound_next {p copy : Nat} {pool : List Nat} (h : Halfway s (p :: ps) qs)
    (hpool : s.mem.pool = copy :: pool) :
    ∃ t, cloneRound s = .inl t ∧ Halfway t ps (qs ++ [copy]) ∧ t.mem.pool = pool ∧
      t.mem.vme copy = s.mem.vme p ∧ (∀ q, q ≠ copy → t.mem.vme q = s.mem.vme q) ∧
      ∀ q, q ∉ qs → q ≠ copy → t.mem.next q = s.mem.next q := by
  obtain ⟨⟨vme,next,stock⟩,copyHead,tail,head⟩ := s
  obtain ⟨⟨rfl,hp,hrest⟩,htarget,htail,hnodup,hpos,hapart⟩ := h
  obtain rfl : stock = copy :: pool := hpool
  obtain ⟨hpq,hpc⟩ := hapart head List.mem_cons_self
  have hc0 : copy ≠ 0 := fun he => hpos (he ▸ List.mem_cons_self)
  have hcq : copy ∉ qs := fun hm =>
    (List.nodup_append.mp hnodup).2.2 copy hm copy List.mem_cons_self rfl
  have hhc : head ≠ copy := fun he => hpc (he ▸ List.mem_cons_self)
  have happ : (qs ++ [copy] ++ pool).Nodup := by
    rw [List.append_assoc]
    exact hnodup
  have hnext (q : Nat) (hq : q ≠ copy) : update (update next copy 0) copy 0 q = next q := by
    rw [update_of_ne hq, update_of_ne hq]
  have hfilled : update (update vme copy ⟨0, 0, none, 0, false⟩) copy
      (update vme copy ⟨0, 0, none, 0, false⟩ head) = update vme copy (vme head) := by
    rw [update_of_ne hhc, update_idem]
  have hleft : ∀ q ∈ ps, q ∉ qs ++ [copy] ∧ q ∉ pool := fun q hq => by
    obtain ⟨hqq,hqc⟩ := hapart q (List.mem_cons_of_mem _ hq)
    rw [List.mem_cons, not_or] at hqc
    rw [List.mem_append, List.mem_singleton, not_or]
    exact ⟨⟨hqq, hqc.1⟩, hqc.2⟩
  -- The links after the round, however the last copy or the head was made to point.
  have hround {next' : Nat → Nat} {first : Nat}
      (hb : cloneRound ⟨⟨vme, next, copy :: pool⟩, copyHead, tail, head⟩ =
        .inl ⟨⟨update vme copy (vme head), next', pool⟩, first, some copy, next' head⟩)
      (hn : ∀ q, q ∉ qs → q ≠ copy → next' q = next q)
      (hchain : Chain 0 next' first (qs ++ [copy])) :
      ∃ t, cloneRound ⟨⟨vme, next, copy :: pool⟩, copyHead, tail, head⟩ = .inl t ∧
        Halfway t ps (qs ++ [copy]) ∧ t.mem.pool = pool ∧ t.mem.vme copy = vme head ∧
        (∀ q, q ≠ copy → t.mem.vme q = vme q) ∧
        ∀ q, q ∉ qs → q ≠ copy → t.mem.next q = next q := by
    have hsource : Chain 0 next' (next' head) ps := by
      rw [hn head hpq hhc]
      refine Chain.congr hrest fun q hq => ?_
      obtain ⟨hqq,hqc⟩ := hapart q (List.mem_cons_of_mem _ hq)
      exact hn q hqq fun he => hqc (he ▸ List.mem_cons_self)
    refine ⟨_, hb, ⟨hsource, hchain, ?_, happ, fun hm => hpos (List.mem_cons_of_mem _ hm), hleft⟩,
      rfl, update_self .., fun q hq => update_of_ne hq .., hn⟩
    rw [List.getLast?_append]
    rfl
  cases tail with
  | none =>
    obtain rfl := List.getLast?_eq_none_iff.mp htail.symm
    refine hround ?_ (fun q _ hq => hnext q hq) ⟨rfl, hc0, update_self ..⟩
    simp only [cloneRound, if_neg hp, Memory.newVme, Cloning.link, hfilled]
  | some last =>
    have hlast := List.mem_of_getLast? htail.symm
    have hclear : Chain 0 (update (update next copy 0) copy 0) copyHead qs :=
      htarget.congr fun q hq => hnext q fun he => hcq (he ▸ hq)
    refine hround ?_ (fun q hq hne => ?_)
      (hclear.snoc hnodup.of_append_left hc0 hcq (update_self ..) htail.symm)
    · simp only [cloneRound, if_neg hp, Memory.newVme, Cloning.link, hfilled]
    · have hql : q ≠ last := fun he => hq (he ▸ hlast)
      exact (update_of_ne hql ..).trans (hnext q hne)

theorem cloneRound_returns (h : Halfway s ps qs) (hlen : ps.length ≤ s.mem.pool.length) :
    ∃ m copyHead, Returns cloneRound s (some (m, copyHead)) ∧
      Chain 0 m.next copyHead (qs ++ s.mem.pool.take ps.length) ∧
      (s.mem.pool.take ps.length).map m.vme = ps.map s.mem.vme ∧
      ∀ q, q ∉ s.mem.pool.take ps.length →
        m.vme q = s.mem.vme q ∧ (q ∉ qs → m.next q = s.mem.next q) := by
  induction ps generalizing s qs with
  | nil =>
    have hdone : cloneRound s = .inr (some (s.mem, s.copyHead)) := if_pos h.source
    refine ⟨s.mem, s.copyHead, returns_done hdone, ?_, rfl, fun q _ => ⟨rfl, fun _ => rfl⟩⟩
    rw [List.length_nil, List.take_zero, List.append_nil]
    exact h.target
  | cons p ps ih =>
    cases hpool : s.mem.pool with
    | nil =>
      rw [hpool] at hlen
      exact absurd hlen (by simp)
    | cons copy pool =>
      obtain ⟨t,ht,hhalf,htp,hcopy,hvme,hnext⟩ := cloneRound_next h hpool
      have hlen' : ps.length ≤ t.mem.pool.length := by
        rw [hpool, List.length_cons, List.length_cons] at hlen
        rw [htp]
        omega
      obtain ⟨m,copyHead,hret,hchain,hmap,hrest⟩ := ih hhalf hlen'
      rw [htp] at hchain hmap hrest
      have hnodup := h.nodup
      rw [hpool] at hnodup
      have hcp : copy ∉ pool := (List.nodup_cons.mp hnodup.of_append_right).1
      refine ⟨m, copyHead, (returns_next ht).mpr hret, ?_, ?_, fun q hq => ?_⟩
      · rw [List.length_cons, List.take_succ_cons, List.append_cons]
        exact hchain
      · rw [List.length_cons, List.take_succ_cons, List.map_cons, List.map_cons, hmap]
        have hc := (hrest copy fun hm => hcp (List.mem_of_mem_take hm)).1
        rw [hc, hcopy]
        congr 1
        refine List.map_congr_left fun q hq => hvme q fun he => ?_
        have hq' := (h.apart q (List.mem_cons_of_mem _ hq)).2
        rw [hpool, he] at hq'
        exact hq' List.mem_cons_self
      · rw [List.length_cons, List.take_succ_cons, List.mem_cons, not_or] at hq
        obtain ⟨hv,hn⟩ := hrest q hq.2
        refine ⟨hv.trans (hvme q hq.1), fun hqs => (hn fun hm => ?_).trans (hnext q hqs hq.1)⟩
        obtain hm | hm := List.mem_append.mp hm
        · exact hqs hm
        · exact hq.1 (List.mem_singleton.mp hm)

/-- `clone_vme_list` of any list comes to its end and makes a list of new nodes with the same
regions in the same order. The old list is as it was. -/
theorem clone_copies (hps : Chain 0 m.next head ps) (hpool : m.pool.Nodup) (hpos : 0 ∉ m.pool)
    (hapart : ∀ p ∈ ps, p ∉ m.pool) (hlen : ps.length ≤ m.pool.length) :
    ∃ fuel m' copyHead qs, cloneVmeList fuel m head = some (m', copyHead) ∧
      Chain 0 m'.next copyHead qs ∧ qs.map m'.vme = ps.map m.vme ∧ (∀ q ∈ qs, q ∉ ps) ∧
      Chain 0 m'.next head ps ∧ ps.map m'.vme = ps.map m.vme := by
  have hstart : Halfway (cloneStart m head) ps [] :=
    ⟨hps, rfl, rfl, hpool, hpos, fun p hp => ⟨List.not_mem_nil, hapart p hp⟩⟩
  obtain ⟨m',copyHead,⟨fuel,hret⟩,hchain,hmap,hrest⟩ := cloneRound_returns hstart hlen
  have hold (p : Nat) (hp : p ∈ ps) : m'.vme p = m.vme p ∧ m'.next p = m.next p := by
    obtain ⟨hv,hn⟩ := hrest p fun hm => hapart p hp (List.mem_of_mem_take hm)
    exact ⟨hv, hn List.not_mem_nil⟩
  refine ⟨fuel, m', copyHead, m.pool.take ps.length, ?_, hchain, hmap,
    fun q hq hp => hapart q hp (List.mem_of_mem_take hq), hps.congr fun p hp => (hold p hp).2,
    List.map_congr_left fun p hp => (hold p hp).1⟩
  rw [cloneVmeList, hret]
  rfl

theorem clone_null {fuel copyHead : Nat} {m' : Memory ν}
    (h : cloneVmeList fuel m 0 = some (m', copyHead)) : m' = m ∧ copyHead = 0 := by
  cases fuel with
  | zero => cases h
  | succ fuel =>
    have hdone : cloneRound (cloneStart m 0) = .inr (some (m, 0)) := if_pos rfl
    rw [cloneVmeList, loop_done hdone] at h
    cases h
    exact ⟨rfl, rfl⟩

/-! What a fork is for. -/

def ListOf (k : Kernel T ν) (t : Nat) (ps : List Nat) : Prop :=
  Chain 0 k.mem.next ((k.threads t).image T.vmes) ps

/-- The thread with the nodes `ps` for its list, as the fault handler sees it. -/
def mappings (k : Kernel T ν) (ps : List Nat) : Mappings ν := ⟨ps.map k.mem.vme, []⟩

def Untouched (k : Kernel T ν) (t va : Nat) : Prop :=
  PageTables.findPte k.ram 3 (k.threads t).cr3 (va >>> 12) = none

/-- The child has a list of its own with the parent's regions, from which a page that the
parent had not touched is loaded with the same content; the parent keeps its list. -/
structure Inherits (k k' : Kernel T ν) (parent child : Nat) (ps : List Nat) : Prop where
  copy : ∃ qs, ListOf k' child qs ∧ qs.map k'.mem.vme = ps.map k.mem.vme ∧ ∀ q ∈ qs, q ∉ ps
  faults : ∀ qs, ListOf k' child qs → ∀ (io : ν → BlockIo) va, Untouched k parent va →
    Mapped (ps.map k.mem.vme) va → ∀ frame ram,
      FilePages.loadPrivate io (mappings k' qs) va frame ram =
        FilePages.loadPrivate io (mappings k ps) va frame ram
  parent : ListOf k' parent ps ∧ ps.map k'.mem.vme = ps.map k.mem.vme

variable {k k' : Kernel T ν} {fuel parent child process commonCr3 sourceCr3 : Nat}

theorem forkFrom_some (h : forkFrom fuel child sourceCr3 k = some k') :
    ∃ copyHead, cloneVmeList fuel k.mem ((k.threads child).image T.vmes) =
        some (k'.mem, copyHead) ∧ (k'.threads child).image T.vmes = copyHead ∧
      ∀ t, t ≠ child → k'.threads t = k.threads t := by
  simp only [forkFrom] at h
  split at h
  · cases h
  · rename_i mem copyHead hclone
    obtain ⟨⟨ram,stock⟩,-,rfl⟩ := Option.map_eq_some_iff.mp h
    refine ⟨copyHead, hclone, ?_, fun t ht => update_of_ne ht ..⟩
    simp [Kernel.setLocal, Kernel.put]

/-- In a thread that starts with the parent's pointer, as its comment says, `fork_from` hands
the list on. -/
theorem forkFrom_inherits {ps : List Nat} (hne : parent ≠ child) (hps : ListOf k parent ps)
    (hlive : (k.threads child).image T.vmes = (k.threads parent).image T.vmes)
    (hpool : k.mem.pool.Nodup) (hpos : 0 ∉ k.mem.pool) (hapart : ∀ p ∈ ps, p ∉ k.mem.pool)
    (hlen : ps.length ≤ k.mem.pool.length) (h : forkFrom fuel child sourceCr3 k = some k') :
    Inherits k k' parent child ps := by
  obtain ⟨copyHead,hclone,hhead,hothers⟩ := forkFrom_some h
  obtain ⟨fuel',m',copyHead',qs,hcopy,hqs,hmap,hnew,hold,holdmap⟩ :=
    clone_copies hps hpool hpos hapart hlen
  rw [hlive] at hclone
  have hsame : (k'.mem, copyHead) = (m', copyHead') := by
    have hret := Returns.unique ⟨fuel, Option.join_eq_some_iff.mp hclone⟩
      ⟨fuel', Option.join_eq_some_iff.mp hcopy⟩
    exact Option.some.inj hret
  obtain ⟨rfl,rfl⟩ := Prod.mk.inj hsame
  have hlist : ListOf k' child qs := by
    rw [ListOf, hhead]
    exact hqs
  refine ⟨⟨qs, hlist, hmap, hnew⟩, fun qs' hqs' io va _ _ frame ram => ?_, ?_, holdmap⟩
  · rw [hqs'.unique hlist, mappings, mappings, hmap]
  · rw [ListOf, hothers parent hne]
    exact hold

/-! What the child starts with. -/

theorem tcbAlloc_eq (T : Template) (mem : Image T) : tcbAlloc T mem = T.word := by
  have hfold (is : List (Fin T.size)) (mem : Image T) (i : Fin T.size) :
      is.foldl (fun mem i => update mem i (T.word i)) mem i =
        if i ∈ is then T.word i else mem i := by
    induction is generalizing mem with
    | nil => rfl
    | cons j is ih =>
      rw [List.foldl_cons, ih]
      by_cases hi : i = j
      · subst hi
        simp
      · simp [hi]
  funext i
  rw [tcbAlloc, hfold, if_pos (List.mem_finRange i)]

theorem fork_some (h : fork fuel parent child process commonCr3 k = some k') :
    k'.mem = k.mem ∧ (k'.threads child).image T.vmes = 0 ∧
      ∀ t, t ≠ child → k'.threads t = k.threads t := by
  obtain ⟨k₁,hinit,hfork⟩ := Option.bind_eq_some_iff.mp h
  obtain ⟨copyHead,hclone,hhead,hothers⟩ := forkFrom_some hfork
  simp only [initThread] at hinit
  split at hinit
  · cases hinit
  · cases hinit
    have hnull : tcbAlloc T (k.threads child).image T.vmes = 0 := by
      rw [tcbAlloc_eq, T.vmes_null]
    simp only [Kernel.setLocal, Kernel.put, makeThread, update_self, update_of_ne T.apart,
      hnull] at hclone
    obtain ⟨hmem,hnil⟩ := clone_null hclone
    refine ⟨hmem, hhead.trans hnil, fun t ht => (hothers t ht).trans ?_⟩
    simp only [Kernel.setLocal, Kernel.put, makeThread, update_of_ne ht]

theorem fork_child {qs : List Nat} (h : fork fuel parent child process commonCr3 k = some k') :
    ListOf k' child qs ↔ qs = [] := by
  have hhead := (fork_some h).2.1
  rw [ListOf, hhead]
  exact ⟨Chain.nil_of_null, fun he => by rw [he]; rfl⟩

/-- A child inherits its parent's list exactly when there is nothing in it. -/
theorem fork_inherits_iff {ps : List Nat} (hne : parent ≠ child) (hps : ListOf k parent ps)
    (h : fork fuel parent child process commonCr3 k = some k') :
    Inherits k k' parent child ps ↔ ps = [] := by
  obtain ⟨hmem,-,hothers⟩ := fork_some h
  constructor
  · intro hi
    obtain ⟨qs,hqs,hmap,-⟩ := hi.copy
    rw [(fork_child h).mp hqs, List.map_nil] at hmap
    exact List.map_eq_nil_iff.mp hmap.symm
  · intro he
    subst he
    refine ⟨⟨[], (fork_child h).mpr rfl, rfl, fun q hq => absurd hq List.not_mem_nil⟩,
      fun _ _ _ _ _ hm => absurd hm (by simp [Mapped, findVme, Spans.spanAt]), ?_, rfl⟩
    rw [ListOf, hothers parent hne, hmem]
    exact hps

theorem eachEntry_absent {n table : Nat} {visit : Nat → Nat → Fork.State → Option Fork.State}
    {s : Fork.State} (h : ∀ i < n, PageTables.present (s.1 table i) = false) :
    Fork.eachEntry n table visit s = some s := by
  induction n with
  | zero => rfl
  | succ n ih =>
    have hn := ih fun i hi => h i (Nat.lt_succ_of_lt hi)
    rw [Fork.eachEntry] at hn ⊢
    rw [List.range_succ, List.foldlM_append, hn]
    simp [h n (Nat.lt_succ_self n)]

theorem fork_isSome {root : Nat} {pool : List Nat} (hstock : k.stock = root :: pool)
    (hroot : (k.threads parent).cr3 ≠ root)
    (hempty : ∀ i < 256, PageTables.present (k.ram (k.threads parent).cr3 i) = false) :
    ∃ k', fork (fuel+1) parent child process commonCr3 k = some k' := by
  have hnull : tcbAlloc T (k.threads child).image T.vmes = 0 := by
    rw [tcbAlloc_eq, T.vmes_null]
  have hclone : cloneVmeList (fuel+1) k.mem 0 = some (k.mem, 0) := by
    have hdone : cloneRound (cloneStart k.mem 0) = .inr (some (k.mem, 0)) := if_pos rfl
    rw [cloneVmeList, loop_done hdone]
    rfl
  have hpages (ram : Ram) (hram : ram (k.threads parent).cr3 = k.ram (k.threads parent).cr3) :
      Fork.forkFrom (k.threads parent).cr3 root (ram, pool) = some (ram, pool) :=
    eachEntry_absent fun i hi => (congrArg PageTables.present (congrFun hram i)).trans (hempty i hi)
  simp only [fork, initThread, makeThread, Kernel.put, hstock, PageTables.alloc, Option.bind_some,
    forkFrom, Kernel.setLocal, update_self, update_of_ne T.apart, hnull, hclone,
    Option.map_eq_some_iff]
  rw [hpages]
  · exact ⟨_, _, rfl, rfl⟩
  · rw [update_of_ne hroot, Frames.zeroFrame, update_of_ne hroot]

def twoLocals : Template :=
  ⟨2, fun _ => 0, ⟨0, Nat.zero_lt_two⟩, ⟨1, Nat.one_lt_two⟩, by decide, rfl, rfl⟩

/-- Thread 1 has the list from `head` and empty tables; an anonymous page is at 64. -/
def onePage (head : Nat) : Kernel twoLocals Empty where
  mem := ⟨fun _ => ⟨4096, 8192, none, 0, false⟩, fun _ => 0, [96]⟩
  threads t := if t = 1 then ⟨fun i => if i.val = 0 then head else 7, 1⟩ else ⟨fun _ => 5, 0⟩
  ram _ _ := 0
  stock := [3]

theorem onePage_forks (head : Nat) : ∃ k', fork 1 1 2 8 4 (onePage head) = some k' :=
  fork_isSome rfl (fun h => absurd h (by decide : 1 ≠ 3))
    fun _ _ => PageTables.present_zero

theorem fork_inherits_onePage :
    (∃ k', fork 1 1 2 8 4 (onePage 0) = some k' ∧ Inherits (onePage 0) k' 1 2 []) ∧
    ∃ k', fork 1 1 2 8 4 (onePage 64) = some k' ∧ ¬ Inherits (onePage 64) k' 1 2 [64] := by
  obtain ⟨k,hk⟩ := onePage_forks 0
  obtain ⟨k',hk'⟩ := onePage_forks 64
  have hnil : ListOf (onePage 0) 1 [] := rfl
  have hone : ListOf (onePage 64) 1 [64] := ⟨rfl, by decide, rfl⟩
  exact ⟨⟨k, hk, (fork_inherits_iff (by decide) hnil hk).mpr rfl⟩,
    ⟨k', hk', fun hi => absurd ((fork_inherits_iff (by decide) hone hk').mp hi) (by decide)⟩⟩

/-- A parent that has mapped a page forks, and the child knows of no region. -/
theorem fork_loses_list : ∃ k', ListOf (onePage 64) 1 [64] ∧
    fork 1 1 2 8 4 (onePage 64) = some k' ∧ ListOf k' 2 [] ∧
      ¬ Inherits (onePage 64) k' 1 2 [64] := by
  obtain ⟨k',hk'⟩ := onePage_forks 64
  refine ⟨k', ⟨rfl, by decide, rfl⟩, hk', (fork_child hk').mpr rfl, fun hi => ?_⟩
  obtain ⟨qs,hqs,hmap,-⟩ := hi.copy
  rw [(fork_child hk').mp hqs] at hmap
  cases hmap

end NetKernel.ForkVmes
