import NetKernel.Net.Headers

/-! The fixed-size ARP cache: eight slots, a clock, and eviction of the slot
seen longest ago. -/
namespace NetKernel.ArpCaches
open Headers

abbrev arpCacheCapacity : Nat := 8

structure ArpEntry where
  valid : Bool := false
  ip : Ip := ⟨0, 0, 0, 0⟩
  mac : Mac := Mac.zero
  lastSeen : Nat := 0
deriving DecidableEq, Repr

structure ArpCache where
  entries : List ArpEntry
  clock : Nat
  size : entries.length = arpCacheCapacity
deriving DecidableEq

def arpCacheReset : ArpCache where
  entries := List.replicate arpCacheCapacity {}
  clock := 0
  size := List.length_replicate

def ArpCache.slot (c : ArpCache) (i : Nat) : ArpEntry := c.entries.getD i {}

def ArpCache.set (c : ArpCache) (i : Nat) (e : ArpEntry) (clock : Nat) : ArpCache where
  entries := c.entries.set i e
  clock := clock
  size := by rw [List.length_set, c.size]

/-- Index of the first valid entry of `ip`; the source's -1 is `none`. -/
def findEntry (c : ArpCache) (ip : Ip) : Option Nat :=
  c.entries.findIdx? fun e => e.valid && e.ip == ip

/-- The scan of `choose_insert_slot_locked` over the remaining indices. -/
def oldestSlot (c : ArpCache) : List Nat → Nat → Nat
  | [], oldest => oldest
  | i :: is, oldest =>
    if (c.slot i).lastSeen < (c.slot oldest).lastSeen then oldestSlot c is i
    else oldestSlot c is oldest

def chooseInsertSlot (c : ArpCache) : Nat :=
  match c.entries.findIdx? fun e => !e.valid with
  | some i => i
  | none => oldestSlot c (List.range' 1 (arpCacheCapacity-1)) 0

/-- The 64-bit clock after `++g_arp_cache_clock`. -/
def tick (c : ArpCache) : Nat := (c.clock+1) % 2^64

def arpCacheInsert (c : ArpCache) (ip : Ip) (mac : Mac) : ArpCache :=
  let slot := match findEntry c ip with
    | some i => i
    | none => chooseInsertSlot c
  c.set slot ⟨true, ip, mac, tick c⟩ (tick c)

/-- The MAC of a hit, whose slot is refreshed; a miss changes nothing. -/
def arpCacheLookup (c : ArpCache) (ip : Ip) : Option Mac × ArpCache :=
  match findEntry c ip with
  | none => (none, c)
  | some i => (some (c.slot i).mac, c.set i { c.slot i with lastSeen := tick c } (tick c))

/-! The entry an insertion writes is found again, whatever the cache held. -/

variable (c : ArpCache) (ip : Ip) (mac : Mac)

theorem oldestSlot_lt (is : List Nat) (his : ∀ i ∈ is, i < arpCacheCapacity) (oldest : Nat)
    (ho : oldest < arpCacheCapacity) : oldestSlot c is oldest < arpCacheCapacity := by
  induction is generalizing oldest with
  | nil => exact ho
  | cons i is ih =>
    have hi := his i List.mem_cons_self
    have hrest : ∀ j ∈ is, j < arpCacheCapacity := fun j hj => his j (List.mem_cons_of_mem _ hj)
    unfold oldestSlot
    split
    · exact ih hrest i hi
    · exact ih hrest oldest ho

theorem findIdx_lt {p : ArpEntry → Bool} {i : Nat} (h : c.entries.findIdx? p = some i) :
    i < arpCacheCapacity := by
  obtain ⟨hi,-⟩ := List.findIdx?_eq_some_iff_getElem.mp h
  rw [← c.size]
  exact hi

theorem chooseInsertSlot_lt : chooseInsertSlot c < arpCacheCapacity := by
  unfold chooseInsertSlot
  split
  · rename_i h
    exact findIdx_lt c h
  · exact oldestSlot_lt c _ (by decide) 0 (by decide)

theorem findEntry_set (i : Nat) (e : ArpEntry) (clock : Nat) (hi : i < arpCacheCapacity)
    (he : e.valid = true) (hip : e.ip = ip)
    (hbefore : findEntry c ip = none ∨ findEntry c ip = some i) :
    findEntry (c.set i e clock) ip = some i := by
  have hlen : i < (c.entries.set i e).length := by rw [List.length_set, c.size]; exact hi
  refine List.findIdx?_eq_some_iff_getElem.mpr ⟨hlen, ?_, fun j hj => ?_⟩
  · simp only [ArpCache.set, List.getElem_set_self, he, hip, beq_self_eq_true, Bool.and_self]
  · have hjl : j < c.entries.length := by rw [c.size]; omega
    simp only [ArpCache.set, List.getElem_set_ne (show i ≠ j by omega)]
    cases hbefore with
    | inl hn => simpa using List.findIdx?_eq_none_iff.mp hn _ (List.getElem_mem hjl)
    | inr hs =>
      obtain ⟨_,-,hno⟩ := List.findIdx?_eq_some_iff_getElem.mp hs
      simpa using hno j hj

theorem arpCacheInsert_slot : ∃ i, i < arpCacheCapacity ∧
    arpCacheInsert c ip mac = c.set i ⟨true, ip, mac, tick c⟩ (tick c) ∧
    findEntry (arpCacheInsert c ip mac) ip = some i := by
  cases hf : findEntry c ip with
  | some i =>
    have hi := findIdx_lt c hf
    have heq : arpCacheInsert c ip mac = c.set i ⟨true, ip, mac, tick c⟩ (tick c) := by
      simp only [arpCacheInsert, hf]
    exact ⟨i, hi, heq, heq ▸ findEntry_set c ip i _ _ hi rfl rfl (Or.inr hf)⟩
  | none =>
    have hi := chooseInsertSlot_lt c
    have heq : arpCacheInsert c ip mac =
        c.set (chooseInsertSlot c) ⟨true, ip, mac, tick c⟩ (tick c) := by
      simp only [arpCacheInsert, hf]
    exact ⟨_, hi, heq, heq ▸ findEntry_set c ip _ _ _ hi rfl rfl (Or.inl hf)⟩

theorem arpCacheLookup_insert : (arpCacheLookup (arpCacheInsert c ip mac) ip).1 = some mac := by
  obtain ⟨i,hi,heq,hf⟩ := arpCacheInsert_slot c ip mac
  have hlen : i < c.entries.length := by rw [c.size]; exact hi
  have hslot : ((arpCacheInsert c ip mac).slot i).mac = mac := by
    rw [heq, ArpCache.slot, ArpCache.set, List.getD_eq_getElem?_getD,
      List.getElem?_set_self hlen, Option.getD_some]
  rw [arpCacheLookup, hf]
  exact congrArg some hslot

/-! Bindings: what every valid entry says. -/

/-- Every valid entry holds a binding that `P` allows. -/
def Holds (P : Ip → Mac → Prop) (c : ArpCache) : Prop :=
  ∀ e ∈ c.entries, e.valid = true → P e.ip e.mac

variable {P : Ip → Mac → Prop} {c}

theorem holds_reset : Holds P arpCacheReset := by
  intro e he hv
  rw [List.eq_of_mem_replicate he] at hv
  cases hv

theorem Holds.set {e : ArpEntry} (h : Holds P c) (i clock : Nat)
    (he : e.valid = true → P e.ip e.mac) : Holds P (c.set i e clock) := by
  intro e' hm hv
  cases List.mem_or_eq_of_mem_set hm with
  | inl hold => exact h e' hold hv
  | inr hnew => exact hnew ▸ he (hnew ▸ hv)

theorem Holds.insert (h : Holds P c) {ip : Ip} {mac : Mac} (hp : P ip mac) :
    Holds P (arpCacheInsert c ip mac) := by
  obtain ⟨i,-,heq,-⟩ := arpCacheInsert_slot c ip mac
  rw [heq]
  exact h.set i _ fun _ => hp

theorem Holds.slot (h : Holds P c) {i : Nat} (hv : (c.slot i).valid = true) :
    P (c.slot i).ip (c.slot i).mac := by
  unfold ArpCache.slot at hv ⊢
  rw [List.getD_eq_getElem?_getD] at hv ⊢
  cases hi : c.entries[i]? with
  | none =>
    rw [hi] at hv
    cases hv
  | some e =>
    rw [hi] at hv
    exact h e (List.mem_of_getElem? hi) hv

theorem Holds.lookup (h : Holds P c) (ip : Ip) : Holds P (arpCacheLookup c ip).2 := by
  unfold arpCacheLookup
  split
  · exact h
  · exact h.set _ _ h.slot

theorem Holds.hit (h : Holds P c) {ip : Ip} {mac : Mac} {cache : ArpCache}
    (hit : arpCacheLookup c ip = (some mac, cache)) : P ip mac := by
  unfold arpCacheLookup at hit
  split at hit
  · cases hit
  · rename_i i hf
    cases hit
    obtain ⟨hi,hp,-⟩ := List.findIdx?_eq_some_iff_getElem.mp hf
    have hslot : c.slot i = c.entries[i] := by
      rw [ArpCache.slot, List.getD_eq_getElem?_getD, List.getElem?_eq_getElem hi, Option.getD_some]
    rw [← hslot, Bool.and_eq_true, beq_iff_eq] at hp
    rw [← hp.2]
    exact h.slot hp.1

end NetKernel.ArpCaches
