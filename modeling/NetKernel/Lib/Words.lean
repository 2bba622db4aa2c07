import Mathlib.Data.Nat.Bitwise
import Mathlib.Tactic.Ring

/-! Little-endian 16-bit words over bytes. Loads, byte halves and the byte swap
are the machine's own operations; every lemma reads them as natural numbers. -/
namespace NetKernel.Words

def bswap16 (x : UInt16) : UInt16 := (x >>> 8) ||| (x <<< 8)

def lowByte (x : UInt16) : UInt8 := x.toUInt8
def highByte (x : UInt16) : UInt8 := (x >>> 8).toUInt8

def store16 (x : UInt16) : List UInt8 := [lowByte x, highByte x]

def load16 (b0 b1 : UInt8) : UInt16 := b0.toUInt16 ||| (b1.toUInt16 <<< 8)

theorem shiftLeft_or (a b : Nat) (h : b < 256) : a <<< 8 ||| b = 256 * a + b := by
  rw [← Nat.shiftLeft_add_eq_or_of_lt (by simpa using h), Nat.shiftLeft_eq, Nat.mul_comm]

theorem toNat_bswap16 (x : UInt16) :
    (bswap16 x).toNat = x.toNat / 256 + 256 * (x.toNat % 256) := by
  have hx : x.toNat < 65536 := x.toNat_lt
  have hm : (x.toNat <<< 8) % 65536 = (x.toNat % 256) <<< 8 := by
    rw [Nat.shiftLeft_eq, Nat.shiftLeft_eq]; omega
  simp only [bswap16, UInt16.toNat_or, UInt16.toNat_shiftRight, UInt16.toNat_shiftLeft]
  change x.toNat >>> 8 ||| (x.toNat <<< 8) % 65536 = _
  rw [Nat.or_comm, hm, Nat.shiftRight_eq_div_pow, shiftLeft_or _ _ (by omega)]
  omega

theorem toNat_load16 (a b : UInt8) : (load16 a b).toNat = a.toNat + 256 * b.toNat := by
  have ha : a.toNat < 256 := a.toNat_lt
  have hb : b.toNat < 256 := b.toNat_lt
  have hm : (b.toNat <<< 8) % 65536 = b.toNat <<< 8 := by
    rw [Nat.shiftLeft_eq]; omega
  simp only [load16, UInt16.toNat_or, UInt16.toNat_shiftLeft, UInt8.toNat_toUInt16]
  change a.toNat ||| (b.toNat <<< 8) % 65536 = _
  rw [Nat.or_comm, hm, shiftLeft_or _ _ ha]
  omega

theorem toNat_lowByte (x : UInt16) : (lowByte x).toNat = x.toNat % 256 := by
  simp [lowByte]

theorem toNat_highByte (x : UInt16) : (highByte x).toNat = x.toNat / 256 := by
  have hx : x.toNat < 65536 := x.toNat_lt
  simp [highByte, Nat.shiftRight_eq_div_pow]
  omega

@[simp] theorem bswap16_bswap16 (x : UInt16) : bswap16 (bswap16 x) = x := by
  have hx : x.toNat < 65536 := x.toNat_lt
  apply UInt16.toNat_inj.mp
  rw [toNat_bswap16, toNat_bswap16]
  omega

@[simp] theorem load16_low_high (x : UInt16) : load16 (lowByte x) (highByte x) = x := by
  apply UInt16.toNat_inj.mp
  rw [toNat_load16, toNat_lowByte, toNat_highByte]
  omega

theorem store16_bswap16 (x : UInt16) : store16 (bswap16 x) = [highByte x, lowByte x] := by
  have hx : x.toNat < 65536 := x.toNat_lt
  have h0 : lowByte (bswap16 x) = highByte x := by
    apply UInt8.toNat_inj.mp
    rw [toNat_lowByte, toNat_bswap16, toNat_highByte]; omega
  have h1 : highByte (bswap16 x) = lowByte x := by
    apply UInt8.toNat_inj.mp
    rw [toNat_highByte, toNat_bswap16, toNat_lowByte]; omega
  rw [store16, h0, h1]

@[simp] theorem length_store16 (x : UInt16) : (store16 x).length = 2 := rfl

/-! Words put together from fields. -/

theorem or_pack {a b : Nat} (i : Nat) (ha : a % 2^i = 0) (hb : b < 2^i) : a ||| b = a+b := by
  obtain ⟨c,rfl⟩ := Nat.dvd_of_mod_eq_zero ha
  exact (Nat.two_pow_add_eq_or_of_lt hb c).symm

def join (low high : UInt32) : UInt64 := low.toUInt64 ||| (high.toUInt64 <<< 32)

theorem toNat_join (low high : UInt32) :
    (join low high).toNat = 2^32*high.toNat+low.toNat := by
  have hlow := low.toNat_lt
  have hhigh := high.toNat_lt
  rw [join, UInt64.toNat_or, UInt64.toNat_shiftLeft, UInt32.toNat_toUInt64,
    UInt32.toNat_toUInt64, Nat.shiftLeft_eq, Nat.or_comm]
  change high.toNat*2^32 % 2^64 ||| low.toNat = _
  rw [or_pack 32 (by omega) hlow]
  omega

theorem and_bit_ne_zero {x y : UInt64} (i : Nat) (hy : y.toNat = 2^i) :
    x &&& y ≠ 0 ↔ x.toNat.testBit i = true := by
  rw [Ne, ← UInt64.toNat_inj, UInt64.toNat_and, hy, Nat.and_two_pow]
  cases x.toNat.testBit i <;> simp

end NetKernel.Words
