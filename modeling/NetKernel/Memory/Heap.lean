import Mathlib.Algebra.Group.Int.Defs
import Mathlib.Algebra.Group.Nat.Defs
import Mathlib.Logic.Function.Basic

/-! The kernel heap: an array of 64-bit words with boundary tags, and a free list
threaded through the available blocks. `safe` is never set, so `sanity` returns its
argument. Indices of the array never come near 2^64; what can wrap is written with
`wrap`. -/
namespace NetKernel.Heaps
open Function

/-- Arithmetic on `uint64_t`. -/
def wrap (n : Nat) : Nat := n % 2^64

def sub64 (a b : Nat) : Nat := (a+2^64-b) % 2^64

/-- A `uint64_t` stored in an `int`, and read back. -/
def toInt (n : Nat) : Int :=
  if n % 2^32 < 2^31 then ((n % 2^32 : Nat) : Int) else ((n % 2^32 : Nat) : Int) - 2^32

def ofInt (x : Int) : Nat := (x % 2^64).toNat

/-- `avail` is the index of the first available block, 0 for none. -/
structure Heap where
  array : Nat
  len : Nat
  word : Nat → Nat
  avail : Nat
  nMalloc : Nat
  nFree : Nat

inductive HeapPanic where
  | assertion
  | takenBlock (i : Nat)
  | unfinished
deriving DecidableEq, Repr

namespace Heap
variable (h : Heap)

def store (i x : Nat) : Heap := { h with word := update h.word i x }

def isTaken (i : Nat) : Bool := h.word i % 2 = 1
def isAvail (i : Nat) : Bool := h.word i % 2 = 0
/-- `array[i] & ~1`. -/
def size (i : Nat) : Nat := h.word i - h.word i % 2

def headerFromFooter (i : Nat) : Nat := wrap (sub64 i (h.size i)+1)
def footerFromHeader (i : Nat) : Nat := sub64 (i+h.size i) 1

def left (i : Nat) : Nat := h.headerFromFooter (sub64 i 1)
def right (i : Nat) : Nat := i+h.size i
def next (i : Nat) : Nat := h.word (i+1)
def prev (i : Nat) : Nat := h.word (i+2)
def setNext (i x : Nat) : Heap := h.store (i+1) x
def setPrev (i x : Nat) : Heap := h.store (i+2) x

def remove (i : Nat) : Heap :=
  let prevIndex := h.prev i
  let nextIndex := h.next i
  let h := if prevIndex = 0 then { h with avail := nextIndex } else h.setNext prevIndex nextIndex
  if nextIndex = 0 then h else h.setPrev nextIndex prevIndex

def makeAvail (i entryCount : Nat) : Except HeapPanic Heap :=
  if entryCount % 2 = 1 then .error .assertion else
  let h := h.store i entryCount
  let h := h.store (h.footerFromHeader i) entryCount
  let h := h.setNext i h.avail
  let h := h.setPrev i 0
  let h := if h.avail = 0 then h else h.setPrev h.avail i
  .ok { h with avail := i }

def makeTaken (i entryCount : Nat) : Except HeapPanic Heap :=
  if entryCount % 2 = 1 then .error .assertion else
  let h := h.store i (entryCount+1)
  .ok (h.store (h.footerFromHeader i) (entryCount+1))

end Heap

/-- `heap::init(base, bytes)` over memory with the words `memory`. -/
def init (memory : Nat → Nat) (base bytes : Nat) : Except HeapPanic Heap :=
  let alignedBase := sub64 (wrap (base+8+15) / 16 * 16) 8
  if alignedBase % 16 ≠ 8 then .error .assertion else
  if alignedBase < base then .error .assertion else
  let delta := alignedBase-base
  if 16 ≤ delta then .error .assertion else
  if bytes < delta then .error .assertion else
  let bytes := (bytes-delta) / 16 * 16
  if bytes ≤ 64 then .error .assertion else
  let len := bytes / 8
  let h : Heap := ⟨alignedBase, len, memory, 0, 0, 0⟩
  h.makeTaken 0 2 >>= fun h =>
  h.makeAvail 2 (len-4) >>= fun h =>
  h.makeTaken (len-2) 2

/-- The words a request needs: its bytes, two tags, at least four, an even number. -/
def entriesFor (bytes : Nat) : Nat :=
  let entries := wrap (bytes+7) / 8 + 2
  let entries := if entries < 4 then 4 else entries
  if entries % 2 = 1 then entries+1 else entries

/-- The loop of `malloc` over the free list: the best size so far and its block,
until an exact fit or `countDown` fits. -/
def scan (h : Heap) (entries : Nat) : Nat → Nat → Nat → Nat → Nat → Except HeapPanic (Nat × Nat)
  | 0, _, _, _, _ => .error .unfinished
  | fuel+1, countDown, p, mx, it =>
    if p = 0 then .ok (mx, it) else
    if h.isTaken p then .error (.takenBlock p) else
    let sz := h.size p
    if entries ≤ sz then
      let best := if sz < mx then (sz, p) else (mx, it)
      if countDown-1 = 0 ∨ sz = entries then .ok best
      else scan h entries fuel (countDown-1) (h.next p) best.1 best.2
    else scan h entries fuel countDown (h.next p) mx it

def uint64Max : Nat := 2^64-1

/-- The pointer to the payload of the block at `i`. -/
def Heap.pointer (h : Heap) (i : Nat) : Nat := wrap (h.array+8*(i+1))

/-- The block at `it`, of `mx` words, becomes a taken one of `entries` words. -/
def takeBlock (h : Heap) (entries mx it : Nat) : Except HeapPanic Heap :=
  let h := h.remove it
  let extra := toInt (sub64 mx entries)
  if 4 ≤ extra then
    h.makeTaken it entries >>= fun h => h.makeAvail (it+entries) (ofInt extra)
  else h.makeTaken it mx

/-- `malloc(bytes)`: the pointer, 0 for null, and the heap after the call. -/
def malloc (h : Heap) (bytes : Nat) : Except HeapPanic (Nat × Heap) :=
  if bytes = 0 then .ok (h.array, h) else
  scan h (entriesFor bytes) (h.len+1) 20 h.avail uint64Max 0 >>= fun (mx, it) =>
  if it = 0 then .ok (0, h) else
  takeBlock h (entriesFor bytes) mx it >>= fun h =>
  let res := h.pointer it
  .ok (res, if res = 0 then h else { h with nMalloc := wrap (h.nMalloc+1) })

/-- Takes the available block at `i` out of the free list and adds its size. -/
def absorb (h : Heap) (i sz : Int) : Heap × Int :=
  let h := h.remove (ofInt i)
  (h, toInt (wrap (ofInt sz+h.size (ofInt i))))

def free (h : Heap) (p : Nat) : Except HeapPanic Heap :=
  if p = 0 then .ok h else
  if p = h.array then .ok h else
  let h := { h with nFree := wrap (h.nFree+1) }
  let idx := toInt (sub64 (sub64 p h.array / 8) 1)
  let sz := toInt (h.size (ofInt idx))
  let leftIndex := toInt (h.left (ofInt idx))
  let rightIndex := toInt (h.right (ofInt idx))
  let (h, idx, sz) := if h.isAvail (ofInt leftIndex) then
    let (h, sz) := absorb h leftIndex sz
    (h, leftIndex, sz) else (h, idx, sz)
  let (h, sz) := if h.isAvail (ofInt rightIndex) then absorb h rightIndex sz else (h, sz)
  h.makeAvail (ofInt idx) (ofInt sz)

end NetKernel.Heaps
