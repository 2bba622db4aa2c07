import NetKernel.Lib.Recency
import NetKernel.Net.ArpCache

/-! The ARP cache as a map of the eight addresses used last: stamps follow the order
of the touches since the last reset. -/
namespace NetKernel.ArpLru
open Headers ArpCaches Recency

inductive ArpCall where
  | reset
  | insert (ip : Ip) (mac : Mac)
  | lookup (ip : Ip)
deriving DecidableEq, Repr

/-- The cache and its touches since the last reset, the newest first: an insertion with
its MAC, or a lookup that hit. -/
structure Traced where
  cache : ArpCache
  touches : List (Ip × Option Mac)

def Traced.boot : Traced := ⟨arpCacheReset, []⟩

def Traced.step (s : Traced) : ArpCall → Traced
  | .reset => .boot
  | .insert ip mac => ⟨arpCacheInsert s.cache ip mac, (ip, some mac) :: s.touches⟩
  | .lookup ip => match arpCacheLookup s.cache ip with
    | (some _, cache) => ⟨cache, (ip, none) :: s.touches⟩
    | (none, cache) => ⟨cache, s.touches⟩

def Traced.run (s : Traced) (calls : List ArpCall) : Traced := calls.foldl Traced.step s

def mostRecent (touches : List (Ip × Option Mac)) : List Ip :=
  (recent (touches.map Prod.fst)).take arpCacheCapacity

def latestMac (ip : Ip) : List (Ip × Option Mac) → Option Mac
  | [] => none
  | (ip', some mac) :: touches => if ip' = ip then some mac else latestMac ip touches
  | (_, none) :: touches => latestMac ip touches

/-! Slots of a cache. -/

section Slots
variable {c : ArpCache} {i : Nat} {ip : Ip}

theorem slot_eq (hi : i < c.entries.length) : c.slot i = c.entries[i] := by
  rw [ArpCache.slot, List.getD_eq_getElem?_getD, List.getElem?_eq_getElem hi, Option.getD_some]

theorem slot_mem (hi : i < arpCacheCapacity) : c.slot i ∈ c.entries := by
  have hl : i < c.entries.length := by rw [c.size]; exact hi
  rw [slot_eq hl]
  exact List.getElem_mem hl

theorem findEntry_some (h : findEntry c ip = some i) :
    i < arpCacheCapacity ∧ (c.slot i).valid = true ∧ (c.slot i).ip = ip := by
  obtain ⟨hi,hp,-⟩ := List.findIdx?_eq_some_iff_getElem.mp h
  rw [← slot_eq hi, Bool.and_eq_true, beq_iff_eq] at hp
  exact ⟨findIdx_lt c h, hp.1, hp.2⟩

theorem findEntry_none (h : findEntry c ip = none) {e : ArpEntry} (he : e ∈ c.entries)
    (hv : e.valid = true) : e.ip ≠ ip := by
  have := List.findIdx?_eq_none_iff.mp h e he
  simpa [hv] using this

theorem oldestSlot_le (c : ArpCache) (is : List Nat) (oldest : Nat) :
    (c.slot (oldestSlot c is oldest)).lastSeen ≤ (c.slot oldest).lastSeen ∧
      ∀ i ∈ is, (c.slot (oldestSlot c is oldest)).lastSeen ≤ (c.slot i).lastSeen := by
  induction is generalizing oldest with
  | nil => exact ⟨Nat.le_refl _, fun i hi => absurd hi List.not_mem_nil⟩
  | cons j is ih =>
    unfold oldestSlot
    by_cases hlt : (c.slot j).lastSeen < (c.slot oldest).lastSeen
    · rw [if_pos hlt]
      obtain ⟨hj,his⟩ := ih j
      refine ⟨by omega, fun i hi => ?_⟩
      cases List.mem_cons.mp hi with
      | inl heq => exact heq ▸ hj
      | inr hmem => exact his i hmem
    · rw [if_neg hlt]
      obtain ⟨ho,his⟩ := ih oldest
      refine ⟨ho, fun i hi => ?_⟩
      cases List.mem_cons.mp hi with
      | inl heq => rw [heq]; omega
      | inr hmem => exact his i hmem

theorem oldestSlot_least (c : ArpCache) {e : ArpEntry} (he : e ∈ c.entries) :
    (c.slot (oldestSlot c (List.range' 1 (arpCacheCapacity-1)) 0)).lastSeen ≤ e.lastSeen := by
  obtain ⟨h0,his⟩ := oldestSlot_le c (List.range' 1 (arpCacheCapacity-1)) 0
  obtain ⟨i,hi,rfl⟩ := List.getElem_of_mem he
  rw [← slot_eq hi]
  rw [c.size] at hi
  by_cases hz : i = 0
  · rw [hz]
    exact h0
  · apply his i
    rw [List.mem_range'_1]
    simp only [arpCacheCapacity] at hi ⊢
    omega

end Slots

/-! Valid entries in the order of their stamps. -/

/-- `l` lists the valid entries, the newest first. -/
structure Represents (c : ArpCache) (l : List ArpEntry) : Prop where
  perm : (c.entries.filter (·.valid)).Perm l
  newest : l.Pairwise fun a b => b.lastSeen < a.lastSeen
  stamps : ∀ e ∈ l, e.lastSeen ≤ c.clock
  distinct : (l.map (·.ip)).Nodup

section Represents
variable {c : ArpCache} {l rest : List ArpEntry} {e : ArpEntry} {i : Nat}

theorem represents_reset : Represents arpCacheReset [] where
  perm := by
    have : arpCacheReset.entries.filter (·.valid) = [] := by decide
    rw [this]
  newest := List.Pairwise.nil
  stamps e he := absurd he List.not_mem_nil
  distinct := List.nodup_nil

theorem Represents.mem (h : Represents c l) : e ∈ l ↔ e ∈ c.entries ∧ e.valid = true := by
  rw [← h.perm.mem_iff, List.mem_filter]

theorem Represents.length_le (h : Represents c l) : l.length ≤ arpCacheCapacity := by
  rw [← h.perm.length_eq, ← c.size]
  exact List.length_filter_le _ _

theorem filter_set (hi : i < arpCacheCapacity) (hv : e.valid = true) (clock : Nat)
    (hrest : (c.entries.filter (·.valid)).Perm
      (if (c.slot i).valid then c.slot i :: rest else rest)) :
    ((c.set i e clock).entries.filter (·.valid)).Perm (e :: rest) := by
  have hl : i < c.entries.length := by rw [c.size]; exact hi
  have hold : c.entries = c.entries.take i ++ c.slot i :: c.entries.drop (i+1) := by
    rw [slot_eq hl, List.getElem_cons_drop, List.take_append_drop]
  have hnew : (c.set i e clock).entries = c.entries.take i ++ e :: c.entries.drop (i+1) := by
    change c.entries.set i e = _
    rw [List.set_eq_take_append_cons_drop, if_pos hl]
  rw [hold, List.filter_append] at hrest
  rw [hnew, List.filter_append, List.filter_cons_of_pos hv]
  refine List.perm_middle.trans (List.Perm.cons e ?_)
  by_cases hs : (c.slot i).valid = true
  · rw [List.filter_cons_of_pos hs, if_pos hs] at hrest
    exact (List.perm_middle.symm.trans hrest).cons_inv
  · rwa [List.filter_cons_of_neg hs, if_neg hs] at hrest

theorem Represents.write (h : Represents c l) (hi : i < arpCacheCapacity) (hv : e.valid = true)
    (hsub : rest.Sublist l) (hrest : l.Perm (if (c.slot i).valid then c.slot i :: rest else rest))
    (hnew : e.ip ∉ rest.map (·.ip)) (hs : e.lastSeen = c.clock+1) :
    Represents (c.set i e (c.clock+1)) (e :: rest) where
  perm := filter_set hi hv _ (h.perm.trans hrest)
  newest := by
    refine List.pairwise_cons.mpr ⟨fun a ha => ?_, h.newest.sublist hsub⟩
    have := h.stamps a (hsub.subset ha)
    omega
  stamps a ha := by
    cases List.mem_cons.mp ha with
    | inl heq => rw [heq, hs]; exact Nat.le_refl _
    | inr hmem => exact Nat.le_succ_of_le (h.stamps a (hsub.subset hmem))
  distinct := List.nodup_cons.mpr ⟨hnew, h.distinct.sublist (hsub.map _)⟩

theorem Represents.found (h : Represents c l) {ip : Ip} (hf : findEntry c ip = some i) :
    ∃ r s, l = r ++ c.slot i :: s ∧ ip ∉ (r ++ s).map (·.ip) ∧ ip ∉ r.map (·.ip) ∧
      (c.slot i).valid = true ∧ (c.slot i).ip = ip ∧ i < arpCacheCapacity := by
  obtain ⟨hi,hv,hip⟩ := findEntry_some hf
  obtain ⟨r,s,rfl⟩ := List.append_of_mem (h.mem.mpr ⟨slot_mem hi, hv⟩)
  have hd := h.distinct
  rw [List.map_append, List.map_cons, List.nodup_middle, List.nodup_cons, hip,
    ← List.map_append] at hd
  refine ⟨r, s, rfl, hd.1, fun hr => hd.1 ?_, hv, hip, hi⟩
  rw [List.map_append]
  exact List.mem_append_left _ hr

theorem Represents.missing (h : Represents c l) {ip : Ip} (hf : findEntry c ip = none) :
    ip ∉ l.map (·.ip) ∧ chooseInsertSlot c < arpCacheCapacity ∧
    (l.length < arpCacheCapacity ∧ (c.slot (chooseInsertSlot c)).valid = false ∨
      ∃ r, l = r ++ [c.slot (chooseInsertSlot c)] ∧ l.length = arpCacheCapacity ∧
        (c.slot (chooseInsertSlot c)).valid = true) := by
  have hno : ip ∉ l.map (·.ip) := by
    intro hm
    obtain ⟨e,he,hip⟩ := List.mem_map.mp hm
    obtain ⟨hmem,hv⟩ := h.mem.mp he
    exact findEntry_none hf hmem hv hip
  refine ⟨hno, chooseInsertSlot_lt c, ?_⟩
  unfold chooseInsertSlot
  cases hfree : c.entries.findIdx? fun e => !e.valid with
  | some i =>
    obtain ⟨hi,hp,-⟩ := List.findIdx?_eq_some_iff_getElem.mp hfree
    rw [← slot_eq hi, Bool.not_eq_true'] at hp
    refine Or.inl ⟨?_, hp⟩
    rw [← h.perm.length_eq, ← c.size]
    refine List.length_filter_lt_length_iff_exists.mpr ⟨c.slot i, slot_mem (c.size ▸ hi), ?_⟩
    rw [hp]
    decide
  | none =>
    have hall : ∀ e ∈ c.entries, e.valid = true := by
      intro e he
      simpa using List.findIdx?_eq_none_iff.mp hfree e he
    have hlen : l.length = arpCacheCapacity := by
      rw [← h.perm.length_eq, List.filter_eq_self.mpr hall, c.size]
    have hslot := oldestSlot_lt c (List.range' 1 (arpCacheCapacity-1)) (by decide) 0 (by decide)
    have hleast : ∀ e ∈ l, (c.slot (oldestSlot c (List.range' 1 (arpCacheCapacity-1)) 0)).lastSeen ≤
        e.lastSeen := fun e he => oldestSlot_least c (h.mem.mp he).1
    have hmem := h.mem.mpr ⟨slot_mem hslot, hall _ (slot_mem hslot)⟩
    refine Or.inr ?_
    simp only
    generalize c.slot (oldestSlot c (List.range' 1 (arpCacheCapacity-1)) 0) = old at hleast hmem ⊢
    obtain ⟨r,b,rfl⟩ := (List.eq_nil_or_concat' l).resolve_left (List.ne_nil_of_mem hmem)
    have hold : old = b := by
      cases List.mem_append.mp hmem with
      | inl hr =>
        have := (List.pairwise_append.mp h.newest).2.2 old hr b List.mem_cons_self
        have := hleast b (List.mem_append_right r List.mem_cons_self)
        omega
      | inr hb => exact List.mem_singleton.mp hb
    exact ⟨r, by rw [hold], hlen, hall _ (h.mem.mp hmem).1⟩

end Represents

/-! The run. -/

theorem latestMac_cons (ip ip' : Ip) (mac : Mac) (touches : List (Ip × Option Mac)) :
    latestMac ip ((ip', some mac) :: touches) =
      if ip' = ip then some mac else latestMac ip touches := rfl

theorem mostRecent_cons (t : Ip × Option Mac) (touches : List (Ip × Option Mac)) :
    mostRecent (t :: touches) = promote arpCacheCapacity t.1 (mostRecent touches) :=
  take_recent_cons _ _ _

/-- The cache holds the addresses touched last, in that order, with their latest MACs. -/
def Lru (s : Traced) : Prop :=
  ∃ l, Represents s.cache l ∧ l.map (·.ip) = mostRecent s.touches ∧
    ∀ e ∈ l, latestMac e.ip s.touches = some e.mac

theorem tick_of_lt {c : ArpCache} (h : c.clock+1 < 2^64) : tick c = c.clock+1 :=
  Nat.mod_eq_of_lt h

section Step
variable {s : Traced} {ip : Ip}

theorem Lru.found {r rest : List ArpEntry} {i : Nat} {e : ArpEntry} {touch : Ip × Option Mac}
    (h : Represents s.cache (r ++ s.cache.slot i :: rest))
    (hips : (r ++ s.cache.slot i :: rest).map (·.ip) = mostRecent s.touches)
    (hmacs : ∀ e ∈ r ++ s.cache.slot i :: rest, latestMac e.ip s.touches = some e.mac)
    (hno : ip ∉ (r ++ rest).map (·.ip)) (hnr : ip ∉ r.map (·.ip))
    (hvalid : (s.cache.slot i).valid = true) (hip : (s.cache.slot i).ip = ip)
    (hi : i < arpCacheCapacity) (hv : e.valid = true) (heip : e.ip = ip)
    (hs : e.lastSeen = s.cache.clock+1) (ht : touch.1 = ip)
    (hmac : latestMac ip (touch :: s.touches) = some e.mac)
    (hother : ∀ ip', ip' ≠ ip → latestMac ip' (touch :: s.touches) = latestMac ip' s.touches) :
    Lru ⟨s.cache.set i e (s.cache.clock+1), touch :: s.touches⟩ := by
  refine ⟨e :: (r ++ rest), h.write hi hv ?_ ?_ (heip ▸ hno) hs, ?_, fun a ha => ?_⟩
  · exact List.Sublist.append (List.Sublist.refl r) (List.sublist_cons_self _ _)
  · rw [if_pos hvalid]
    exact List.perm_middle
  · have hlen : (r.map (·.ip) ++ ip :: rest.map (·.ip)).length ≤ arpCacheCapacity := by
      have := h.length_le
      simp only [List.length_append, List.length_cons, List.length_map] at this ⊢
      exact this
    rw [List.map_append, List.map_cons, hip] at hips
    rw [mostRecent_cons, ← hips, ht, promote_held hlen hnr, List.map_cons, List.map_append, heip]
  · cases List.mem_cons.mp ha with
    | inl heq => rw [heq, heip, hmac]
    | inr hmem =>
      have hne : a.ip ≠ ip := fun heq => hno (heq ▸ List.mem_map_of_mem hmem)
      rw [hother _ hne]
      apply hmacs
      rw [List.mem_append] at hmem ⊢
      exact hmem.imp id (List.mem_cons_of_mem _)

theorem Lru.insert (h : Lru s) (ip : Ip) (mac : Mac) (hclock : s.cache.clock+1 < 2^64) :
    Lru (s.step (.insert ip mac)) := by
  obtain ⟨l,hl,hips,hmacs⟩ := h
  have hother (ip' : Ip) (hne : ip' ≠ ip) :
      latestMac ip' ((ip, some mac) :: s.touches) = latestMac ip' s.touches := by
    rw [latestMac_cons, if_neg hne.symm]
  have hmac : latestMac ip ((ip, some mac) :: s.touches) = some mac := by
    rw [latestMac_cons, if_pos rfl]
  simp only [Traced.step, arpCacheInsert, tick_of_lt hclock]
  cases hf : findEntry s.cache ip with
  | some i =>
    obtain ⟨r,rest,rfl,hno,hnr,hvalid,hip,hi⟩ := hl.found hf
    exact Lru.found hl hips hmacs hno hnr hvalid hip hi rfl rfl rfl rfl hmac hother
  | none =>
    obtain ⟨hno,hi,hslot⟩ := hl.missing hf
    generalize chooseInsertSlot s.cache = i at hi hslot
    have hmost : ip ∉ mostRecent s.touches := hips ▸ hno
    have hlen : (mostRecent s.touches).length = l.length := by rw [← hips, List.length_map]
    cases hslot with
    | inl hfree =>
      obtain ⟨hroom,hinvalid⟩ := hfree
      refine ⟨⟨true, ip, mac, s.cache.clock+1⟩ :: l,
        hl.write hi rfl (List.Sublist.refl l) ?_ hno rfl, ?_, fun a ha => ?_⟩
      · rw [hinvalid]
        exact List.Perm.refl l
      · rw [mostRecent_cons, promote_room (by omega) hmost, List.map_cons, hips]
      · cases List.mem_cons.mp ha with
        | inl heq => rw [heq, hmac]
        | inr hmem =>
          have hne : a.ip ≠ ip := fun heq => hno (heq ▸ List.mem_map_of_mem hmem)
          rw [hother _ hne, hmacs a hmem]
    | inr hfull =>
      obtain ⟨r,rfl,hcap,hvalid⟩ := hfull
      have hnr : ip ∉ r.map (·.ip) := fun hm => hno (by
        rw [List.map_append]
        exact List.mem_append_left _ hm)
      refine ⟨⟨true, ip, mac, s.cache.clock+1⟩ :: r,
        hl.write hi rfl (List.sublist_append_left _ _) ?_ hnr rfl, ?_, fun a ha => ?_⟩
      · rw [if_pos hvalid]
        exact List.perm_append_comm
      · rw [List.map_append, List.map_singleton] at hips
        rw [mostRecent_cons, ← hips, promote_full _ (by rw [hips, hlen, hcap]) (hips ▸ hmost),
          List.map_cons]
      · cases List.mem_cons.mp ha with
        | inl heq => rw [heq, hmac]
        | inr hmem =>
          have hne : a.ip ≠ ip := fun heq => hnr (heq ▸ List.mem_map_of_mem hmem)
          rw [hother _ hne, hmacs a (List.mem_append_left _ hmem)]

theorem Lru.lookup (h : Lru s) (ip : Ip) (hclock : s.cache.clock+1 < 2^64) :
    Lru (s.step (.lookup ip)) := by
  obtain ⟨l,hl,hips,hmacs⟩ := h
  cases hf : findEntry s.cache ip with
  | none =>
    simp only [Traced.step, arpCacheLookup, hf]
    exact ⟨l, hl, hips, hmacs⟩
  | some i =>
    obtain ⟨r,rest,rfl,hno,hnr,hvalid,hip,hi⟩ := hl.found hf
    simp only [Traced.step, arpCacheLookup, hf, tick_of_lt hclock]
    have hmac := hmacs (s.cache.slot i) (List.mem_append_right _ List.mem_cons_self)
    rw [hip] at hmac
    exact Lru.found hl hips hmacs hno hnr hvalid hip hi hvalid hip rfl rfl hmac
      fun _ _ => rfl

theorem lru_boot : Lru .boot :=
  ⟨[], represents_reset, rfl, fun _ he => absurd he List.not_mem_nil⟩

theorem Lru.step (h : Lru s) (call : ArpCall) (hclock : s.cache.clock+1 < 2^64) :
    Lru (s.step call) ∧ (s.step call).cache.clock ≤ s.cache.clock+1 := by
  cases call with
  | reset => exact ⟨lru_boot, Nat.zero_le _⟩
  | insert ip mac =>
    refine ⟨h.insert ip mac hclock, ?_⟩
    obtain ⟨i,-,heq,-⟩ := arpCacheInsert_slot s.cache ip mac
    simp only [Traced.step, heq]
    exact Nat.le_of_eq (tick_of_lt hclock)
  | lookup ip =>
    refine ⟨h.lookup ip hclock, ?_⟩
    simp only [Traced.step, arpCacheLookup]
    cases findEntry s.cache ip with
    | none => exact Nat.le_succ _
    | some i => exact Nat.le_of_eq (tick_of_lt hclock)

theorem Lru.run (h : Lru s) (calls : List ArpCall) (hclock : s.cache.clock+calls.length < 2^64) :
    Lru (s.run calls) := by
  induction calls generalizing s with
  | nil => exact h
  | cons call calls ih =>
    simp only [List.length_cons] at hclock
    obtain ⟨hstep,hle⟩ := h.step call (by omega)
    exact ih hstep (by omega)

/-- A lookup answers for exactly the addresses held, with their latest MACs. -/
theorem Lru.hit (h : Lru s) (ip : Ip) : (arpCacheLookup s.cache ip).1 =
    if ip ∈ mostRecent s.touches then latestMac ip s.touches else none := by
  obtain ⟨l,hl,hips,hmacs⟩ := h
  rw [← hips]
  cases hf : findEntry s.cache ip with
  | none =>
    rw [if_neg (hl.missing hf).1]
    simp only [arpCacheLookup, hf]
  | some i =>
    obtain ⟨r,rest,rfl,-,-,-,hip,-⟩ := hl.found hf
    have hmem : s.cache.slot i ∈ r ++ s.cache.slot i :: rest :=
      List.mem_append_right _ List.mem_cons_self
    have hm := hmacs _ hmem
    rw [hip] at hm
    rw [if_pos (hip ▸ List.mem_map_of_mem hmem), hm]
    simp only [arpCacheLookup, hf]

end Step

/-! What the cache is for. -/

theorem nodup_mostRecent (touches : List (Ip × Option Mac)) : (mostRecent touches).Nodup :=
  (nodup_recent _).sublist (List.take_sublist _ _)

theorem mem_mostRecent {touches : List (Ip × Option Mac)} {t : Ip × Option Mac}
    (hlen : (mostRecent touches).length < arpCacheCapacity) (ht : t ∈ touches) :
    t.1 ∈ mostRecent touches := by
  have hall : mostRecent touches = recent (touches.map Prod.fst) := by
    rw [mostRecent, List.length_take] at hlen
    exact List.take_of_length_le (by omega)
  rw [hall, mem_recent]
  exact List.mem_map_of_mem ht

/-- The cache of a traced run is the map of the addresses touched last. -/
structure LruMap (s : Traced) : Prop where
  distinct : (mostRecent s.touches).Nodup
  all : (mostRecent s.touches).length < arpCacheCapacity →
    ∀ t ∈ s.touches, t.1 ∈ mostRecent s.touches
  holds : ∀ ip, (∃ e ∈ s.cache.entries, e.valid = true ∧ e.ip = ip) ↔ ip ∈ mostRecent s.touches
  lookup : ∀ ip, (arpCacheLookup s.cache ip).1 =
    if ip ∈ mostRecent s.touches then latestMac ip s.touches else none
  bound : ∀ ip ∈ mostRecent s.touches, (latestMac ip s.touches).isSome
  distinctIps : s.cache.entries.Pairwise fun a b => a.valid = true → b.valid = true → a.ip ≠ b.ip
  distinctStamps : s.cache.entries.Pairwise fun a b =>
    a.valid = true → b.valid = true → a.lastSeen ≠ b.lastSeen
  stamps : ∀ e ∈ s.cache.entries, e.valid = true → e.lastSeen ≤ s.cache.clock

theorem Represents.pairwise {c : ArpCache} {l : List ArpEntry} (h : Represents c l)
    {R : ArpEntry → ArpEntry → Prop} (hsymm : ∀ a b, R a b → R b a) (hl : l.Pairwise R) :
    c.entries.Pairwise fun a b => a.valid = true → b.valid = true → R a b :=
  List.pairwise_filter.mp ((h.perm.pairwise_iff fun {a b} => hsymm a b).mpr hl)

theorem Lru.map {s : Traced} (h : Lru s) : LruMap s := by
  have hhit := h.hit
  obtain ⟨l,hl,hips,hmacs⟩ := h
  have hmem (ip : Ip) : (∃ e ∈ s.cache.entries, e.valid = true ∧ e.ip = ip) ↔
      ip ∈ mostRecent s.touches := by
    simp only [← hips, List.mem_map, hl.mem, and_assoc]
  refine ⟨nodup_mostRecent _, fun hlen _ ht => mem_mostRecent hlen ht, hmem, hhit, fun ip hip => ?_,
    ?_, ?_, fun e he hv => hl.stamps e (hl.mem.mpr ⟨he, hv⟩)⟩
  · rw [← hips] at hip
    obtain ⟨e,he,rfl⟩ := List.mem_map.mp hip
    rw [hmacs e he]
    rfl
  · exact hl.pairwise (R := fun a b => a.ip ≠ b.ip) (fun _ _ => Ne.symm)
      (List.pairwise_map.mp hl.distinct)
  · exact hl.pairwise (R := fun a b => a.lastSeen ≠ b.lastSeen) (fun _ _ => Ne.symm)
      (hl.newest.imp fun hlt => Nat.ne_of_gt hlt)

/-- After any fewer than 2^64 calls the ARP cache is an LRU map. -/
theorem arpCache_lru (calls : List ArpCall) (h : calls.length < 2^64) :
    LruMap (Traced.boot.run calls) :=
  (lru_boot.run calls (by
    change 0+calls.length < 2^64
    omega)).map

theorem arpCache_lru_two : LruMap (Traced.boot.run
    [.insert ⟨10, 0, 2, 2⟩ Mac.broadcast, .lookup ⟨10, 0, 2, 2⟩]) :=
  arpCache_lru [.insert ⟨10, 0, 2, 2⟩ Mac.broadcast, .lookup ⟨10, 0, 2, 2⟩] (by decide)

end NetKernel.ArpLru
