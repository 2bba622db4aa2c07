import NetKernel.Net.Checksum
import NetKernel.Net.Acceptance

/-! Damage to one word of a string with checksum zero, and of an IPv4 packet. -/
namespace NetKernel.Corruption
open Words OnesComplement Buffers Headers Hosts Receive Replies Acceptance Checksums

/-- An aligned word of the range, or its odd last byte, becomes `w`: a different value, and
not the other zero. -/
structure Damage (b : Buffer) (off len k : Nat) (w : List UInt8) : Prop where
  aligned : k % 2 = 0
  inside : w.length = 1 ∧ k+1 = len ∨ w.length = 2 ∧ k+2 ≤ len
  differs : w ≠ b.slice (off+k) w.length
  noExchange : ¬Exchange (b.slice (off+k) w.length) w

variable {b f : Buffer} {off len k : Nat} {w : List UInt8}

theorem Damage.le (h : Damage b off len k w) : k+w.length ≤ len := by
  have := h.inside
  omega

theorem Damage.lt (h : Damage b off len k w) : k < len := by
  have := h.inside
  omega

theorem checksum_damaged (hin : off+len ≤ b.size) (hl : len < 2^16) (hd : Damage b off len k w)
    (h0 : checksum (b.slice off len) = 0) : checksum ((b.splice (off+k) w).slice off len) ≠ 0 := by
  have hle := hd.le
  have hpre : (b.slice off k).length = k := length_slice b off k (by omega)
  have hw : (b.slice (off+k) w.length).length = w.length := length_slice b _ _ (by omega)
  have hsplit : b.slice off len = b.slice off k ++
      (b.slice (off+k) w.length ++ b.slice (off+k+w.length) (len-(k+w.length))) := by
    rw [← slice_add, ← slice_add]
    congr 1
    omega
  have hlen := length_slice b off len hin
  rw [slice_splice b off len k w hle hin]
  rw [hsplit] at h0 hlen
  refine checksum_replace (by rw [hpre]; exact hd.aligned) ?_ hw.symm hd.differs hd.noExchange
    (by rw [hlen]; exact hl) h0
  rw [hw]
  obtain ⟨h1,hk⟩ | ⟨h2,-⟩ := hd.inside
  · refine Or.inl ⟨h1, ?_⟩
    rw [h1, hk, Nat.sub_self, slice_zero]
  · exact Or.inr h2

/-! The frame of a damaged packet. -/

theorem byte_before {p i : Nat} (hin : p+w.length ≤ f.size) (hi : i < p) :
    (f.splice p w).byte i = f.byte i := by
  rw [byte_splice f p w i hin, if_pos hi]

theorem ipv4At_splice {p : Nat} (hin : p+w.length ≤ f.size) (hp : 34 ≤ p) :
    ipv4At (f.splice p w) 14 = ipv4At f 14 := by
  simp (disch := omega) only [ipv4At, word, ipAt, byte_before hin]

theorem headerLen_splice {p : Nat} (hin : p+w.length ≤ f.size) (hp : 15 ≤ p) :
    headerLen (f.splice p w) = headerLen f := by
  simp only [headerLen, ipv4HeaderLength, ipv4At, byte_before hin (show 14 < p by omega)]

theorem header_damaged (h : Host) (hin : 14+headerLen f ≤ f.size) (hk : 2 ≤ k)
    (hd : Damage f 14 (headerLen f) k w) (h0 : checksum (f.slice 14 (headerLen f)) = 0) :
    ¬AcceptsIpv4 h (f.splice (14+k) w) := by
  have hle := hd.le
  have hlen := headerLen_le f
  intro ha
  have hc := ha.headerChecksum
  rw [headerLen_splice (by omega) (by omega)] at hc
  exact checksum_damaged hin (by omega) hd h0 hc

theorem message_damaged (h : Host) (h20 : 20 ≤ headerLen f) (hin : 14+totalLen f ≤ f.size)
    (hp : (ipv4At f 14).protocol = ipv4ProtoIcmp)
    (hd : Damage f (14+headerLen f) (payloadLen f) k w)
    (h0 : checksum (f.slice (14+headerLen f) (payloadLen f)) = 0) :
    OnlyCounts h fun u => handleIpv4Over u (f.splice (14+headerLen f+k) w) h := by
  have hle := hd.le
  have hk := hd.lt
  have hlt := totalLen_lt f
  have hpay : payloadLen f = totalLen f-headerLen f := rfl
  have hat : ipv4At (f.splice (14+headerLen f+k) w) 14 = ipv4At f 14 :=
    ipv4At_splice (by omega) (by omega)
  have hhdr : headerLen (f.splice (14+headerLen f+k) w) = headerLen f := by
    rw [headerLen, hat, headerLen]
  have htotal : totalLen (f.splice (14+headerLen f+k) w) = totalLen f := by
    rw [totalLen, hat, totalLen]
  by_cases ha : AcceptsIpv4 h (f.splice (14+headerLen f+k) w)
  · have hu : (ipv4At f 14).protocol ≠ ipv4ProtoUdp := by
      rw [hp]
      decide
    have hdispatch := fun u => handleIpv4Over_accepted u ha
    simp only [hdispatch, dispatchIpv4, hat, if_neg hu, if_neg (not_not.mpr hp)]
    refine OnlyCounts.after (c := .ipv4Rx) ?_
    rw [← hat]
    refine handleIcmpOver_other _ ha fun hall => ?_
    have hc := hall.2.2
    rw [payloadLen, hhdr, htotal, ← hpay] at hc
    exact checksum_damaged (by omega) (by omega) hd h0 hc
  · exact handleIpv4Over_rejected ha

/-- A string with checksum zero shows every damage; a packet damaged in its header behind the
first word, or in its ICMP message, reaches no upper layer. -/
theorem corruption_detected :
    (∀ b off len k w, off+len ≤ b.size → len ≤ 65535 → Checksum16 b off len (.ok 0) →
      Damage b off len k w → ¬Checksum16 (b.splice (off+k) w) off len (.ok 0)) ∧
    (∀ h f k w, 14+headerLen f ≤ f.size → Checksum16 f 14 (headerLen f) (.ok 0) → 2 ≤ k →
      Damage f 14 (headerLen f) k w →
        OnlyCounts h fun u => handleIpv4Over u (f.splice (14+k) w) h) ∧
    (∀ h f k w, 20 ≤ headerLen f → 14+totalLen f ≤ f.size →
      (ipv4At f 14).protocol = ipv4ProtoIcmp →
      Checksum16 f (14+headerLen f) (payloadLen f) (.ok 0) →
      Damage f (14+headerLen f) (payloadLen f) k w →
        OnlyCounts h fun u => handleIpv4Over u (f.splice (14+headerLen f+k) w) h) := by
  refine ⟨fun b off len k w hin hl hc hd hc' => ?_, fun h f k w hin hc hk hd => ?_,
    fun h f k w h20 hin hp hc hd => ?_⟩
  · have hle := hd.le
    have hsize : (b.splice (off+k) w).size = b.size := size_splice b _ _ (by omega)
    have h0 := (checksum16_iff_checksum hin (by omega) _).mp hc
    have h0' := (checksum16_iff_checksum (by rw [hsize]; exact hin) (by omega) _).mp hc'
    exact checksum_damaged hin (by omega) hd (Except.ok.inj h0).symm (Except.ok.inj h0').symm
  · have hlen := headerLen_le f
    have h0 := (checksum16_iff_checksum hin (by omega) _).mp hc
    exact handleIpv4Over_rejected (header_damaged h hin hk hd (Except.ok.inj h0).symm)
  · have hk := hd.lt
    have hlt := totalLen_lt f
    have hpay : payloadLen f = totalLen f-headerLen f := rfl
    have h0 := (checksum16_iff_checksum (by omega) (by omega) _).mp hc
    exact message_damaged h h20 hin hp hd (Except.ok.inj h0).symm

/-- The time to live of a datagram, changed on the way. -/
theorem corruption_detected_ttl :
    OnlyCounts listeningHost fun u =>
      handleIpv4Over u ((received (datagramFrame 0x45 0)).splice (14+8) [63, 17]) listeningHost := by
  have hc : checksum ((received (datagramFrame 0x45 0)).slice 14 20) = 0 := by decide +kernel
  refine corruption_detected.2.1 listeningHost (received (datagramFrame 0x45 0)) 8 [63, 17]
    (by decide) ((checksum16_iff_checksum (by decide) (by decide) _).mpr ?_) (by decide) ?_
  · exact congrArg Except.ok hc.symm
  · exact ⟨by decide, by decide, by decide +kernel, by decide +kernel⟩

end NetKernel.Corruption
