import NetKernel.Lib.Words
import NetKernel.Lib.OnesComplement

/-! Bounded byte buffers of the network path. Every load and store goes through
`read` and `write`, so an access outside its buffer is a fault of the run. -/
namespace NetKernel.Buffers
open Words OnesComplement

/-- The buffers that the receive and send paths touch. -/
inductive Region where
  | received | arpReply | icmpReply | arpRequest | ipv4Frame | datagram | payload
deriving DecidableEq, Repr

/-- An access with an index outside the region. -/
structure Fault where
  region : Region
  index : Nat
deriving DecidableEq, Repr

structure Buffer where
  region : Region
  bytes : List UInt8
deriving DecidableEq, Repr

/-- A local array `uint8_t name[n] = {}`. -/
def Buffer.zeroed (r : Region) (n : Nat) : Buffer := ⟨r, List.replicate n 0⟩

def Buffer.size (b : Buffer) : Nat := b.bytes.length

def read (b : Buffer) (i : Nat) : Except Fault UInt8 :=
  match b.bytes[i]? with
  | some x => .ok x
  | none => .error ⟨b.region, i⟩

def write (b : Buffer) (i : Nat) (x : UInt8) : Except Fault Buffer :=
  if i < b.size then .ok { b with bytes := b.bytes.set i x } else .error ⟨b.region, i⟩

def readBytes (b : Buffer) : Nat → Nat → Except Fault (List UInt8)
  | _, 0 => .ok []
  | off, n+1 => do
    let x ← read b off
    let xs ← readBytes b (off+1) n
    .ok (x :: xs)

/-- `copy_bytes(b + off, xs, xs.length)`. -/
def writeBytes (b : Buffer) : Nat → List UInt8 → Except Fault Buffer
  | _, [] => .ok b
  | off, x :: xs => do
    let b ← write b off x
    writeBytes b (off+1) xs

def read16 (b : Buffer) (off : Nat) : Except Fault UInt16 := do
  let b0 ← read b off
  let b1 ← read b (off+1)
  .ok (load16 b0 b1)

/-- The first loop of `checksum16`: `n` words from `i`, added into a 32-bit sum. -/
def sumWords (b : Buffer) : Nat → Nat → Nat → Except Fault Nat
  | 0, _, sum => .ok sum
  | n+1, i, sum => do
    let x ← read b i
    let y ← read b (i+1)
    sumWords b n (i+2) ((sum + (x.toNat <<< 8 ||| y.toNat)) % 2^32)

/-- `checksum16(b + off, len)`. -/
def checksum16 (b : Buffer) (off len : Nat) : Except Fault UInt16 := do
  let sum ← sumWords b (len/2) off 0
  if len % 2 = 1 then
    let x ← read b (off+len-1)
    .ok (~~~(UInt16.ofNat (fold 3 ((sum + x.toNat <<< 8) % 2^32))))
  else .ok (~~~(UInt16.ofNat (fold 3 sum)))

@[simp] theorem ok_bind {ε α β : Type} (a : α) (k : α → Except ε β) :
    (Except.ok a >>= k) = k a := rfl

@[simp] theorem error_bind {ε α β : Type} (e : ε) (k : α → Except ε β) :
    ((Except.error e : Except ε α) >>= k) = .error e := rfl

theorem bind_eq_ok {ε α β : Type} {x : Except ε α} {k : α → Except ε β} {b : β}
    (h : (x >>= k) = .ok b) : ∃ a, x = .ok a ∧ k a = .ok b := by
  cases x with
  | ok a => exact ⟨a, rfl, h⟩
  | error e => cases h

def InBounds {α : Type} (x : Except Fault α) : Prop := ∃ a, x = .ok a

theorem inBounds_ok {α : Type} (a : α) : InBounds (.ok a) := ⟨a, rfl⟩

theorem not_inBounds_error {α : Type} (e : Fault) : ¬ InBounds (.error e : Except Fault α) := by
  rintro ⟨a,h⟩
  cases h

theorem inBounds_ite {α : Type} {c : Prop} [Decidable c] {x y : Except Fault α} :
    InBounds (if c then x else y) ↔ (c → InBounds x) ∧ (¬ c → InBounds y) := by
  split <;> simp_all

theorem inBounds_bind {α β : Type} {x : Except Fault α} {k : α → Except Fault β} :
    InBounds (x >>= k) ↔ ∃ a, x = .ok a ∧ InBounds (k a) := by
  cases x with
  | ok a => simp
  | error e => simp [not_inBounds_error]

/-- The bytes `[off, off + n)` of a buffer. -/
def Buffer.slice (b : Buffer) (off n : Nat) : List UInt8 := (b.bytes.drop off).take n

/-- The buffer with `xs` at `off`. -/
def Buffer.splice (b : Buffer) (off : Nat) (xs : List UInt8) : Buffer :=
  { b with bytes := b.bytes.take off ++ xs ++ b.bytes.drop (off+xs.length) }

/-- The byte at `i`, zero outside the buffer. -/
def Buffer.byte (b : Buffer) (i : Nat) : UInt8 := b.bytes.getD i 0

theorem read_ok (b : Buffer) (i : Nat) (h : i < b.size) : read b i = .ok (b.byte i) := by
  simp [read, Buffer.byte, List.getElem?_eq_getElem h]

theorem read_fault (b : Buffer) (i : Nat) (h : b.size ≤ i) :
    read b i = .error ⟨b.region, i⟩ := by
  simp [read, List.getElem?_eq_none h]

theorem slice_succ (b : Buffer) (off n : Nat) (h : off < b.size) :
    b.slice off (n+1) = b.byte off :: b.slice (off+1) n := by
  rw [Buffer.slice, List.drop_eq_getElem_cons h, List.take_succ_cons, Buffer.slice, Buffer.byte,
    List.getD_eq_getElem?_getD, List.getElem?_eq_getElem h, Option.getD_some]

theorem slice_add (b : Buffer) (off m n : Nat) :
    b.slice off (m+n) = b.slice off m ++ b.slice (off+m) n := by
  simp only [Buffer.slice, List.take_add, List.drop_drop]

@[simp] theorem slice_zero (b : Buffer) (off : Nat) : b.slice off 0 = [] := by
  simp [Buffer.slice]

theorem length_slice (b : Buffer) (off n : Nat) (h : off+n ≤ b.size) :
    (b.slice off n).length = n := by
  simp only [Buffer.slice, List.length_take, List.length_drop, Buffer.size] at *
  omega

theorem readBytes_ok (b : Buffer) (off n : Nat) (h : off+n ≤ b.size) :
    readBytes b off n = .ok (b.slice off n) := by
  induction n generalizing off with
  | zero => simp [readBytes]
  | succ n ih =>
    simp only [readBytes, read_ok b off (by omega), ih (off+1) (by omega),
      slice_succ b off n (by omega), ok_bind]

theorem read16_ok (b : Buffer) (off : Nat) (h : off+1 < b.size) :
    read16 b off = .ok (load16 (b.byte off) (b.byte (off+1))) := by
  simp only [read16, read_ok b off (by omega), read_ok b (off+1) h, ok_bind]

theorem slice_splice (b : Buffer) (off len k : Nat) (xs : List UInt8) (hk : k+xs.length ≤ len)
    (h : off+len ≤ b.size) : (b.splice (off+k) xs).slice off len =
      b.slice off k ++ (xs ++ b.slice (off+k+xs.length) (len-(k+xs.length))) := by
  have hl : (b.bytes.take (off+k)).length = off+k := by
    rw [List.length_take]
    simp only [Buffer.size] at h
    omega
  have hs : b.slice off k = (b.bytes.take (off+k)).drop off := by
    rw [Buffer.slice, List.drop_take, Nat.add_sub_cancel_left]
  have hk' : (b.slice off k).length = k := length_slice b off k (by omega)
  obtain ⟨rest,rfl⟩ := Nat.exists_eq_add_of_le hk
  rw [Nat.add_sub_cancel_left, Buffer.slice, Buffer.splice, List.append_assoc,
    List.drop_append_of_le_length (by omega), ← hs, Nat.add_assoc]
  conv => enter [1, 1]; rw [← hk']
  rw [List.take_length_add_append, List.take_length_add_append]
  rfl

@[simp] theorem size_splice (b : Buffer) (off : Nat) (xs : List UInt8)
    (h : off+xs.length ≤ b.size) : (b.splice off xs).size = b.size := by
  simp only [Buffer.splice, Buffer.size, List.length_append, List.length_take,
    List.length_drop] at *
  omega

theorem splice_splice (b : Buffer) (off : Nat) (xs ys : List UInt8) (hl : ys.length = xs.length)
    (h : off+xs.length ≤ b.size) : (b.splice off xs).splice off ys = b.splice off ys := by
  have ht : (b.bytes.take off).length = off := by
    rw [List.length_take]
    simp only [Buffer.size] at h
    omega
  have hp : (b.bytes.take off ++ xs).length = off+ys.length := by
    rw [List.length_append, ht, hl]
  simp only [Buffer.splice, Buffer.mk.injEq, true_and]
  rw [List.drop_left' hp, List.append_assoc (b.bytes.take off) xs, List.take_left' ht, hl]

theorem writeBytes_ok (b : Buffer) (off : Nat) (xs : List UInt8)
    (h : off+xs.length ≤ b.size) : writeBytes b off xs = .ok (b.splice off xs) := by
  induction xs generalizing b off with
  | nil => simp [writeBytes, Buffer.splice]
  | cons x xs ih =>
    simp only [List.length_cons] at h
    have hw : write b off x = .ok { b with bytes := b.bytes.set off x } := by
      rw [write, if_pos (by omega)]
    have hs : off < b.bytes.length := by unfold Buffer.size at h; omega
    simp only [writeBytes, hw, ok_bind]
    rw [ih _ _ (by simp only [Buffer.size, List.length_set] at *; omega)]
    simp only [Buffer.splice, Except.ok.injEq, Buffer.mk.injEq, true_and, List.length_cons]
    rw [List.take_succ_eq_append_getElem (by simpa using hs), List.take_set_of_le (by omega),
      List.getElem_set_self, List.drop_set_of_lt (by omega)]
    simp [Nat.add_comm, Nat.add_left_comm]

theorem writeBytes_size (b : Buffer) (off : Nat) (xs : List UInt8) (h : off+xs.length ≤ b.size) :
    ∃ b', writeBytes b off xs = .ok b' ∧ b'.size = b.size :=
  ⟨_, writeBytes_ok b off xs h, size_splice b off xs h⟩

theorem writeBytes_mid (r : Region) (l m t xs : List UInt8) (off : Nat) (ho : off = l.length)
    (hm : xs.length = m.length) :
    writeBytes ⟨r, l ++ (m ++ t)⟩ off xs = .ok ⟨r, l ++ (xs ++ t)⟩ := by
  subst ho
  rw [writeBytes_ok _ _ _ (by simp [Buffer.size]; omega)]
  have hd : (l ++ (m ++ t)).drop (l.length+xs.length) = t := by
    rw [hm, ← List.append_assoc, List.drop_left' (by simp)]
  simp [Buffer.splice, hd]

theorem slice_mid (r : Region) (l m t : List UInt8) (off n : Nat) (ho : off = l.length)
    (hn : n = m.length) : Buffer.slice ⟨r, l ++ (m ++ t)⟩ off n = m := by
  subst ho hn
  simp [Buffer.slice]

theorem byte_append (r : Region) (l t : List UInt8) (i : Nat) :
    Buffer.byte ⟨r, l ++ t⟩ (l.length+i) = Buffer.byte ⟨r, t⟩ i := by
  simp only [Buffer.byte, List.getD_eq_getElem?_getD]
  rw [List.getElem?_append_right (by omega), Nat.add_sub_cancel_left]

theorem writeBytes_fault (b : Buffer) (off : Nat) (xs : List UInt8)
    (h : b.size < off+xs.length) (hx : xs ≠ []) : ∃ e, writeBytes b off xs = .error e := by
  induction xs generalizing b off with
  | nil => exact absurd rfl hx
  | cons x xs ih =>
    simp only [List.length_cons] at h
    by_cases ho : off < b.size
    · have hw : write b off x = .ok { b with bytes := b.bytes.set off x } := by
        rw [write, if_pos ho]
      simp only [writeBytes, hw, ok_bind]
      apply ih
      · simp only [Buffer.size, List.length_set] at *; omega
      · intro he; simp [he] at h; omega
    · exact ⟨⟨b.region, off⟩, by simp only [writeBytes, write, if_neg ho, error_bind]⟩

theorem add_word (sum x y rest : Nat) (hy : y < 256) (h : sum + (256*x+y+rest) < 2^32) :
    (sum + (x <<< 8 ||| y)) % 2^32 = sum + (256*x+y) := by
  rw [shiftLeft_or _ _ hy]
  exact Nat.mod_eq_of_lt (by omega)

/-- The words of the first loop are those of the bytes it reads, and a sum below
2^32 never wraps. -/
theorem sumWords_ok (b : Buffer) (n i sum : Nat) (h : i+2*n ≤ b.size)
    (hs : sum + wordSum (b.slice i (2*n)) < 2^32) :
    sumWords b n i sum = .ok (sum + wordSum (b.slice i (2*n))) := by
  induction n generalizing i sum with
  | zero => simp [sumWords, wordSum]
  | succ n ih =>
    have hx := (b.byte i).toNat_lt
    have hy := (b.byte (i+1)).toNat_lt
    have hc : b.slice i (2*(n+1)) = b.byte i :: b.byte (i+1) :: b.slice (i+2) (2*n) := by
      rw [Nat.mul_succ, slice_succ b i _ (by omega), slice_succ b (i+1) _ (by omega)]
    rw [hc, wordSum] at hs
    simp only [sumWords, read_ok b i (by omega), read_ok b (i+1) (by omega), ok_bind]
    rw [add_word _ _ _ _ hy hs, ih _ _ (by omega) (by rw [Nat.add_assoc]; exact hs), hc, wordSum,
      Nat.add_assoc]

theorem wordSum_odd (b : Buffer) (off len : Nat) (h : off+len ≤ b.size) (ho : len % 2 = 1) :
    wordSum (b.slice off len) =
      wordSum (b.slice off (2*(len/2))) + 256 * (b.byte (off+len-1)).toNat := by
  have hlen : len = 2*(len/2)+1 := by omega
  have hlast : b.slice (off+2*(len/2)) 1 = [b.byte (off+len-1)] := by
    rw [slice_succ b _ 0 (by omega), slice_zero]
    congr 2
    omega
  have hc : b.slice off len = b.slice off (2*(len/2)) ++ [b.byte (off+len-1)] := by
    rw [← hlast, ← slice_add, ← hlen]
  rw [hc, wordSum_append _ _ (by rw [length_slice b off _ (by omega)]; omega)]
  rfl

theorem checksum16_ok (b : Buffer) (off len : Nat) (h : off+len ≤ b.size) (hl : len < 2^16) :
    checksum16 b off len = .ok (checksum (b.slice off len)) := by
  have hb := wordSum_le (b.slice off (2*(len/2)))
  rw [length_slice b off _ (by omega)] at hb
  have hsum := sumWords_ok b (len/2) off 0 (by omega) (by omega)
  rw [Nat.zero_add] at hsum
  simp only [checksum16, hsum, checksum, ok_bind]
  split
  · rename_i ho
    have hx := (b.byte (off+len-1)).toNat_lt
    rw [read_ok b _ (by omega), wordSum_odd b off len h ho, ok_bind]
    rw [Nat.shiftLeft_eq, Nat.mul_comm _ (2^8), Nat.mod_eq_of_lt (by omega)]
  · have hlen : 2*(len/2) = len := by omega
    rw [hlen]

end NetKernel.Buffers
