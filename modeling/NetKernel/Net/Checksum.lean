import NetKernel.Lib.Loops
import NetKernel.Net.Buffer

/-! `checksum16` as its loops over a 32-bit accumulator, against one's-complement addition;
and the sealing of a string by a checksum of its own. -/
namespace NetKernel.Checksums
open Relation Loops Words OnesComplement Buffers

/-- `(uint16_t(data[i]) << 8) | uint16_t(data[i + 1])`. -/
def wordOf (x y : UInt8) : UInt16 := (x.toUInt16 <<< 8) ||| y.toUInt16

/-- One round of the loop over 16-bit words, on `i` and `sum`. -/
def wordBody (b : Buffer) (off len : Nat) : Nat × UInt32 → (Nat × UInt32) ⊕ Except Fault UInt32
  | (i, sum) =>
    if i+1 < len then
      match read b (off+i), read b (off+i+1) with
      | .ok x, .ok y => .inl (i+2, sum + (wordOf x y).toUInt32)
      | .error e, _ => .inr (.error e)
      | .ok _, .error e => .inr (.error e)
    else .inr (.ok sum)

/-- The leftover byte, padded on the right. -/
def oddByte (b : Buffer) (off len : Nat) (sum : UInt32) : Except Fault UInt32 := do
  if len % 2 = 1 then
    let x ← read b (off+len-1)
    .ok (sum + (x.toUInt32 <<< 8))
  else .ok sum

/-- One round of the loop that folds the carries back. -/
def foldBody (sum : UInt32) : UInt32 ⊕ UInt32 :=
  if sum >>> 16 ≠ 0 then .inl ((sum &&& (0xFFFF : UInt32)) + (sum >>> 16)) else .inr sum

/-- `checksum16(b + off, len)` ends with `r`. -/
def Checksum16 (b : Buffer) (off len : Nat) (r : Except Fault UInt16) : Prop :=
  ∃ s, Returns (wordBody b off len) (0, 0) s ∧
    match s >>= oddByte b off len with
    | .error e => r = .error e
    | .ok sum => ∃ t, Returns foldBody sum t ∧ r = .ok (~~~t).toUInt16

variable {b : Buffer} {off len : Nat}

theorem toNat_wordOf (x y : UInt8) : (wordOf x y).toNat = 256 * x.toNat + y.toNat := by
  have hx := x.toNat_lt
  have hy : y.toNat < 256 := y.toNat_lt
  have hm : (x.toNat <<< 8) % 65536 = x.toNat <<< 8 := by
    rw [Nat.shiftLeft_eq]
    omega
  simp only [wordOf, UInt16.toNat_or, UInt16.toNat_shiftLeft, UInt8.toNat_toUInt16]
  change (x.toNat <<< 8) % 65536 ||| y.toNat = _
  rw [hm, shiftLeft_or _ _ hy]

/-- The words before `i` are in the accumulator, as they are. -/
structure Summed (b : Buffer) (off len : Nat) (s : Nat × UInt32) : Prop where
  even : s.1 % 2 = 0
  le : s.1 ≤ len
  sum : s.2.toNat = wordSum (b.slice off s.1)

theorem wordBody_round {s : Nat × UInt32} (hin : off+len ≤ b.size) (hl : len < 2^16)
    (hs : Summed b off len s) (hi : s.1+1 < len) :
    ∃ sum, wordBody b off len s = .inl (s.1+2, sum) ∧ Summed b off len (s.1+2, sum) := by
  obtain ⟨i,sum⟩ := s
  have hx := (b.byte (off+i)).toNat_lt
  have hy := (b.byte (off+i+1)).toNat_lt
  have heven : i % 2 = 0 := hs.even
  have hslice : b.slice off (i+2) = b.slice off i ++ [b.byte (off+i), b.byte (off+i+1)] := by
    rw [slice_add, slice_succ b _ 1 (by omega), slice_succ b _ 0 (by omega), slice_zero]
  have hword : wordSum (b.slice off (i+2)) = wordSum (b.slice off i) +
      (256 * (b.byte (off+i)).toNat + (b.byte (off+i+1)).toNat) := by
    rw [hslice, wordSum_append _ _ (by rw [length_slice b off i (by omega)]; exact heven)]
    rfl
  have hle := wordSum_le (b.slice off (i+2))
  rw [length_slice b off (i+2) (by omega), hword] at hle
  refine ⟨sum + (wordOf (b.byte (off+i)) (b.byte (off+i+1))).toUInt32, ?_, ?_, ?_, ?_⟩
  · rw [wordBody, if_pos hi, read_ok b _ (by omega), read_ok b _ (by omega)]
  · omega
  · exact hi
  · have hsum : sum.toNat = wordSum (b.slice off i) := hs.sum
    rw [UInt32.toNat_add, UInt16.toNat_toUInt32, toNat_wordOf, hsum, hword]
    exact Nat.mod_eq_of_lt (by omega)

theorem wordBody_returns (hin : off+len ≤ b.size) (hl : len < 2^16) :
    ∃ sum, Returns (wordBody b off len) (0, 0) (.ok sum) ∧
      sum.toNat = wordSum (b.slice off (2*(len/2))) := by
  have h0 : Summed b off len (0, 0) := ⟨rfl, Nat.zero_le _, by rw [slice_zero]; rfl⟩
  have hpost : ∃ r, Returns (wordBody b off len) (0, 0) r ∧
      ∃ sum : UInt32, r = .ok sum ∧ sum.toNat = wordSum (b.slice off (2*(len/2))) := by
    refine returns_of_measure (fun s => len-s.1) (fun s hs => ?_) h0
    by_cases hi : s.1+1 < len
    · obtain ⟨sum,hb,hs'⟩ := wordBody_round hin hl hs hi
      exact Or.inr ⟨_, hb, hs', by omega⟩
    · have heven := hs.even
      have hle := hs.le
      have hend : s.1 = 2*(len/2) := by omega
      refine Or.inl ⟨.ok s.2, ?_, s.2, rfl, hend ▸ hs.sum⟩
      rw [wordBody, if_neg hi]
  obtain ⟨r,hr,sum,rfl,hsum⟩ := hpost
  exact ⟨sum, hr, hsum⟩

theorem oddByte_ok {sum : UInt32} (hin : off+len ≤ b.size) (hl : len < 2^16)
    (hs : sum.toNat = wordSum (b.slice off (2*(len/2)))) :
    ∃ t, oddByte b off len sum = .ok t ∧ t.toNat = wordSum (b.slice off len) := by
  have hle := wordSum_le (b.slice off len)
  rw [length_slice b off len hin] at hle
  by_cases ho : len % 2 = 1
  · have hx : (b.byte (off+len-1)).toNat < 256 := (b.byte (off+len-1)).toNat_lt
    have hodd := wordSum_odd b off len hin ho
    have hshift : ((b.byte (off+len-1)).toUInt32 <<< 8).toNat =
        256 * (b.byte (off+len-1)).toNat := by
      rw [UInt32.toNat_shiftLeft, UInt8.toNat_toUInt32]
      change (b.byte (off+len-1)).toNat <<< 8 % 2^32 = _
      rw [Nat.shiftLeft_eq]
      omega
    refine ⟨sum + ((b.byte (off+len-1)).toUInt32 <<< 8), ?_, ?_⟩
    · rw [oddByte, if_pos ho, read_ok b _ (by omega), ok_bind]
    · rw [UInt32.toNat_add, hshift, hs, hodd]
      exact Nat.mod_eq_of_lt (by omega)
  · have hlen : 2*(len/2) = len := by omega
    rw [hlen] at hs
    exact ⟨sum, by rw [oddByte, if_neg ho], hs⟩

theorem foldBody_round {s t : UInt32} (h : foldBody s = .inl t) :
    65536 ≤ s.toNat ∧ t.toNat = s.toNat % 65536 + s.toNat / 65536 := by
  have hs := s.toNat_lt
  have hand : (s &&& (0xFFFF : UInt32)).toNat = s.toNat % 65536 := by
    rw [UInt32.toNat_and]
    exact Nat.and_two_pow_sub_one_eq_mod s.toNat 16
  have hshift : (s >>> 16).toNat = s.toNat / 65536 := by
    rw [UInt32.toNat_shiftRight]
    exact Nat.shiftRight_eq_div_pow s.toNat 16
  rw [foldBody] at h
  split at h
  · rename_i hne
    cases h
    rw [ne_eq, ← UInt32.toNat_inj, hshift] at hne
    change ¬s.toNat / 65536 = 0 at hne
    refine ⟨by omega, ?_⟩
    rw [UInt32.toNat_add, hand, hshift]
    exact Nat.mod_eq_of_lt (by omega)
  · cases h

theorem foldBody_done {s r : UInt32} (h : foldBody s = .inr r) : r = s ∧ s.toNat < 65536 := by
  have hs := s.toNat_lt
  have hshift : (s >>> 16).toNat = s.toNat / 65536 := by
    rw [UInt32.toNat_shiftRight]
    exact Nat.shiftRight_eq_div_pow s.toNat 16
  rw [foldBody] at h
  split at h
  · cases h
  · rename_i heq
    cases h
    rw [not_not, ← UInt32.toNat_inj, hshift] at heq
    change s.toNat / 65536 = 0 at heq
    exact ⟨rfl, by omega⟩

theorem foldBody_returns (s : UInt32) : ∃ r, Returns foldBody s r ∧ Folds s.toNat r.toNat := by
  have h0 : s.toNat % 65535 = s.toNat % 65535 ∧ (s.toNat = 0 ↔ s.toNat = 0) := ⟨rfl, Iff.rfl⟩
  refine returns_of_measure (P := fun t => t.toNat % 65535 = s.toNat % 65535 ∧
    (t.toNat = 0 ↔ s.toNat = 0)) UInt32.toNat (fun t ht => ?_) h0
  cases hb : foldBody t with
  | inl u =>
    obtain ⟨hbig,hu⟩ := foldBody_round hb
    exact Or.inr ⟨u, rfl, ⟨by omega, by omega⟩, by omega⟩
  | inr r =>
    obtain ⟨rfl,hlt⟩ := foldBody_done hb
    exact Or.inl ⟨r, rfl, hlt, ht.1, ht.2⟩

theorem complement_folds {s : Nat} {t : UInt32} {l : UInt16} (ht : Folds s t.toNat)
    (hl : Folds s l.toNat) : (~~~t).toUInt16 = ~~~l := by
  have hlt := ht.lt
  apply UInt16.toNat_inj.mp
  rw [UInt32.toNat_toUInt16, UInt32.toNat_not, UInt16.toNat_not, ← ht.unique hl]
  change (2^32-1-t.toNat) % 65536 = 65535-t.toNat
  omega

theorem checksum16_iff (hin : off+len ≤ b.size) (hl : len < 2^16) (r : Except Fault UInt16) :
    Checksum16 b off len r ↔ r = .ok (~~~onesSum (words (b.slice off len))) := by
  obtain ⟨sum,hsum,hwords⟩ := wordBody_returns hin hl
  obtain ⟨t,hodd,ht⟩ := oddByte_ok hin hl hwords
  obtain ⟨u,hu,hfold⟩ := foldBody_returns t
  have hval : (~~~u).toUInt16 = ~~~onesSum (words (b.slice off len)) :=
    complement_folds hfold (ht ▸ onesSum_folds _)
  constructor
  · rintro ⟨s,hs,hrest⟩
    obtain rfl := hs.unique hsum
    rw [ok_bind, hodd] at hrest
    obtain ⟨v,hv,rfl⟩ := hrest
    rw [hv.unique hu, hval]
  · rintro rfl
    refine ⟨.ok sum, hsum, ?_⟩
    rw [ok_bind, hodd]
    exact ⟨u, hu, by rw [hval]⟩

theorem checksum16_iff_checksum (hin : off+len ≤ b.size) (hl : len < 2^16)
    (r : Except Fault UInt16) : Checksum16 b off len r ↔ r = .ok (checksum (b.slice off len)) := by
  have hle := wordSum_le (b.slice off len)
  rw [length_slice b off len hin] at hle
  rw [checksum16_iff hin hl, checksum_eq_onesSum _ (by omega)]

theorem checksum16_iff_buffers (hin : off+len ≤ b.size) (hl : len < 2^16)
    (r : Except Fault UInt16) : Checksum16 b off len r ↔ r = checksum16 b off len := by
  rw [checksum16_iff_checksum hin hl, checksum16_ok b off len hin hl]

theorem checksum16_seal {k : Nat} (hin : off+len ≤ b.size) (hl : len < 2^16) (he : k % 2 = 0)
    (hk : k+2 ≤ len) {c : UInt16}
    (hc : Checksum16 (b.splice (off+k) (store16 0)) off len (.ok c)) :
    Checksum16 ((b.splice (off+k) (store16 0)).splice (off+k) (store16 (bswap16 c))) off len
      (.ok 0) := by
  have hsize (x : UInt16) : (b.splice (off+k) (store16 x)).size = b.size :=
    size_splice b _ _ (by rw [length_store16]; omega)
  have hslice (x : UInt16) : (b.splice (off+k) (store16 x)).slice off len =
      b.slice off k ++ (store16 x ++ b.slice (off+k+2) (len-(k+2))) :=
    slice_splice b off len k (store16 x) hk hin
  have hover := splice_splice b (off+k) (store16 0) (store16 (bswap16 c)) rfl
    (by rw [length_store16]; omega)
  rw [checksum16_iff_checksum (by rw [hsize]; exact hin) hl, hslice] at hc
  rw [hover, checksum16_iff_checksum (by rw [hsize]; exact hin) hl, hslice]
  have hpre : (b.slice off k).length = k := length_slice b off k (by omega)
  have hpost : (b.slice (off+k+2) (len-(k+2))).length = len-(k+2) :=
    length_slice b _ _ (by omega)
  have hseal := checksum_seal (b.slice off k) (b.slice (off+k+2) (len-(k+2)))
    (by rw [hpre]; exact he) (by rw [List.length_append, hpre, hpost]; omega)
  rw [Except.ok.inj hc, hseal]

/-- For a string of up to 65535 bytes: the loops return the complement of the one's-complement
sum of its words, the accumulator is the exact sum in every round, and a string sealed at an
even place has checksum zero. -/
theorem checksum16_sound (b : Buffer) (off len : Nat) (hin : off+len ≤ b.size) (hl : len ≤ 65535) :
    (∀ r, Checksum16 b off len r ↔ r = .ok (~~~onesSum (words (b.slice off len)))) ∧
    (∀ i sum, ReflTransGen (Leads (wordBody b off len)) (0, 0) (i, sum) →
      i ≤ len ∧ sum.toNat = wordSum (b.slice off i)) ∧
    (∀ sum, Returns (wordBody b off len) (0, 0) (.ok sum) → ∃ t, oddByte b off len sum = .ok t ∧
      t.toNat = wordSum (b.slice off len)) ∧
    (∀ s t, foldBody s = .inl t → t.toNat = s.toNat % 65536 + s.toNat / 65536) ∧
    ∀ k, k % 2 = 0 → k+2 ≤ len → ∃ c,
      Checksum16 (b.splice (off+k) (store16 0)) off len (.ok c) ∧
      store16 (bswap16 c) = [highByte c, lowByte c] ∧
      Checksum16 ((b.splice (off+k) (store16 0)).splice (off+k) (store16 (bswap16 c))) off len
        (.ok 0) := by
  have hlt : len < 2^16 := Nat.lt_succ_of_le hl
  have h0 : Summed b off len (0, 0) := ⟨rfl, Nat.zero_le _, by rw [slice_zero]; rfl⟩
  refine ⟨checksum16_iff hin hlt, fun i sum hr => ?_, fun sum hr => ?_, fun s t h => ?_,
    fun k he hk => ?_⟩
  · have hs := leads_post (P := Summed b off len) (fun s t hs hst => ?_) hr h0
    · exact ⟨hs.le, hs.sum⟩
    · by_cases hi : s.1+1 < len
      · obtain ⟨sum,hb,hs'⟩ := wordBody_round hin hlt hs hi
        cases hb.symm.trans hst
        exact hs'
      · rw [wordBody, if_neg hi] at hst
        cases hst
  · obtain ⟨sum',hr',hs⟩ := wordBody_returns hin hlt
    cases hr.unique hr'
    exact oddByte_ok hin hlt hs
  · exact (foldBody_round h).2
  · have hsize : (b.splice (off+k) (store16 0)).size = b.size :=
      size_splice b _ _ (by rw [length_store16]; omega)
    have hc := (checksum16_iff (b := b.splice (off+k) (store16 0)) (by rw [hsize]; exact hin) hlt
      _).mpr rfl
    exact ⟨_, hc, store16_bswap16 _, checksum16_seal hin hlt he hk hc⟩

theorem checksum16_sound_odd : Checksum16 ⟨.payload, [1, 2, 3]⟩ 0 3 (.ok 0xFBFD) :=
  ((checksum16_sound ⟨.payload, [1, 2, 3]⟩ 0 3 (by decide) (by decide)).1 _).mpr
    (congrArg Except.ok (by decide))

end NetKernel.Checksums
