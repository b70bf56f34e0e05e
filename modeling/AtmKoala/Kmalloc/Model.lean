import Mathlib.Logic.Function.Basic
import Mathlib.Data.List.Chain
import Mathlib.Algebra.Order.Ring.Int

/-!
The kernel heap, `kmalloc.c`.

Memory is words of 64 bits by their address; a block header is four words (magic,
size, free, next), of which `free` uses the lower half of its word. Addresses and
sizes are computed modulo 2^64 as `uintptr_t` and `uint64_t` are, and `heap_total`
modulo 2^32. A null pointer is 0.

The two loops stop after `HEAP_WALK_MAX` rounds, which is their fuel here.
-/

namespace AtmKoala.Kmalloc

/-- Arithmetic of `uint64_t`. -/
def u64 (n : Nat) : Nat := n % 2 ^ 64

/-- Subtraction of `uint64_t`. -/
def sub64 (m n : Nat) : Nat := u64 (m + (2 ^ 64 - u64 n))

/-- `ALIGN` for a power of two. -/
def align (n a : Nat) : Nat := u64 (n + a - 1) / a * a

def heapMagic : Nat := 0xC4FE
def minSplit : Nat := 32
def heapWalkMax : Nat := 65536

/-- `sizeof(block_header_t)`. -/
def headerSize : Nat := 32

/-- The memory and the static variables. -/
structure Heap where
  mem : Nat → Nat
  heapStart : Nat
  heapTotal : Nat

namespace Heap

def store (h : Heap) (a v : Nat) : Heap := { h with mem := Function.update h.mem a v }

def magic (h : Heap) (p : Nat) : Nat := h.mem p
def size (h : Heap) (p : Nat) : Nat := h.mem (p + 8)
def free (h : Heap) (p : Nat) : Nat := h.mem (p + 16) % 2 ^ 32
def next (h : Heap) (p : Nat) : Nat := h.mem (p + 24)

def setMagic (h : Heap) (p v : Nat) : Heap := h.store p v
def setSize (h : Heap) (p v : Nat) : Heap := h.store (p + 8) v
def setFree (h : Heap) (p v : Nat) : Heap :=
  h.store (p + 16) (h.mem (p + 16) - h.mem (p + 16) % 2 ^ 32 + v)
def setNext (h : Heap) (p v : Nat) : Heap := h.store (p + 24) v

/-- The end of the heap. -/
def heapEnd (h : Heap) : Nat := u64 (u64 (h.heapStart + h.heapTotal) + headerSize)

end Heap

def heapHeaderValid (h : Heap) (p : Nat) : Bool :=
  p ≠ 0 ∧ h.heapStart ≠ 0 ∧ h.heapStart ≤ p ∧ p ≤ sub64 h.heapEnd headerSize ∧ p % 8 = 0

/-- The static variables before `heap_init`. -/
def statics (mem : Nat → Nat) : Heap := ⟨mem, 0, 0⟩

def heapInit (h : Heap) (startAddr size : Nat) : Heap :=
  let aligned := align startAddr 16
  if size < headerSize + 16 then h
  else
    let size := sub64 size (sub64 aligned startAddr)
    let h := { h with heapStart := aligned }
    let h := h.setMagic aligned heapMagic
    let h := h.setSize aligned (sub64 size headerSize)
    let h := h.setFree aligned 1
    let h := h.setNext aligned 0
    { h with heapTotal := h.size aligned % 2 ^ 32 }

/-- The loop of `coalesce`. -/
def coalesceFrom (h : Heap) : Nat → Nat → Heap
  | 0, _ => h
  | fuel + 1, cur =>
    if cur = 0 ∨ h.next cur = 0 then h
    else if !heapHeaderValid h cur || !heapHeaderValid h (h.next cur) ||
        h.magic cur ≠ heapMagic || h.magic (h.next cur) ≠ heapMagic then h
    else if h.free cur ≠ 0 ∧ h.free (h.next cur) ≠ 0 then
      let h := h.setSize cur (u64 (h.size cur + u64 (headerSize + h.size (h.next cur))))
      let h := h.setNext cur (h.next (h.next cur))
      coalesceFrom h fuel cur
    else coalesceFrom h fuel (h.next cur)

def coalesce (h : Heap) : Heap := coalesceFrom h heapWalkMax h.heapStart

/-- A free block of the heap is taken for `size` bytes. -/
def takeBlock (h : Heap) (cur size : Nat) : Heap :=
  let h :=
    if u64 (u64 (size + headerSize) + minSplit) ≤ h.size cur then
      let newb := u64 (u64 (cur + headerSize) + size)
      let h := h.setMagic newb heapMagic
      let h := h.setSize newb (sub64 (sub64 (h.size cur) size) headerSize)
      let h := h.setFree newb 1
      let h := h.setNext newb (h.next cur)
      let h := h.setNext cur newb
      h.setSize cur size
    else h
  h.setFree cur 0

/-- The loop of `kmalloc`. -/
def kmallocFrom (h : Heap) (size : Nat) : Nat → Nat → Heap × Nat
  | 0, _ => (h, 0)
  | fuel + 1, cur =>
    if cur = 0 then (h, 0)
    else if !heapHeaderValid h cur || h.magic cur ≠ heapMagic then (h, 0)
    else if h.free cur ≠ 0 ∧ size ≤ h.size cur then
      (takeBlock h cur size, u64 (cur + headerSize))
    else kmallocFrom h size fuel (h.next cur)

/-- `kmalloc`, with the pointer it returns. -/
def kmalloc (h : Heap) (size : Nat) : Heap × Nat :=
  if h.heapStart = 0 ∨ size = 0 then (h, 0)
  else kmallocFrom h (align size 8) heapWalkMax h.heapStart

/-- The header `kfree` works on: the one in front of the pointer, or the one in
front of the pointer that `kmalloc_aligned` stored there. -/
def headerOf (h : Heap) (ptr : Nat) : Option Nat :=
  let hdr := sub64 ptr headerSize
  if !heapHeaderValid h hdr || h.magic hdr ≠ heapMagic then
    if ptr < u64 (h.heapStart + 8) then none
    else
      let raw := h.mem (sub64 ptr 8)
      if raw < u64 (h.heapStart + headerSize) ∨ h.heapEnd ≤ raw then none
      else some (sub64 raw headerSize)
  else some hdr

def kfree (h : Heap) (ptr : Nat) : Heap :=
  if ptr = 0 ∨ h.heapStart = 0 then h
  else if ptr < u64 (h.heapStart + headerSize) ∨ h.heapEnd ≤ ptr then h
  else
    match headerOf h ptr with
    | none => h
    | some hdr =>
      if !heapHeaderValid h hdr || h.magic hdr ≠ heapMagic || h.free hdr ≠ 0 then h
      else coalesce (h.setFree hdr 1)

/-- The headers chained from `p`, at most `fuel` of them. -/
def headers (h : Heap) : Nat → Nat → List Nat
  | 0, _ => []
  | fuel + 1, p => if p = 0 then [] else p :: headers h fuel (h.next p)

/-! ### Use -/

/-- Calls of the allocator, and what its users do with their memory. -/
inductive Op where
  | kmalloc (size : Nat)
  | kfree (ptr : Nat)
  | write (a v : Nat)

/-- The heap and the live allocations, each with the size that was asked for. -/
structure State where
  heap : Heap
  live : List (Nat × Nat)

def perform (s : State) : Op → Option State
  | .kmalloc size =>
    match Kmalloc.kmalloc s.heap size with
    | (h, ptr) => some ⟨h, if ptr = 0 then s.live else (ptr, size) :: s.live⟩
  | .kfree ptr => some ⟨Kmalloc.kfree s.heap ptr, s.live.eraseP (·.1 = ptr)⟩
  | .write a v => some ⟨s.heap.store a v, s.live⟩

def Step (s : State) (op : Op) (s' : State) : Prop := perform s op = some s'

/-- There are fewer than `HEAP_WALK_MAX` blocks. -/
def Few (h : Heap) : Prop := (headers h heapWalkMax h.heapStart).length < heapWalkMax

instance (h : Heap) : Decidable (Few h) := inferInstanceAs (Decidable (_ < _))

/-- The allocator is asked for at most 2^63 bytes and gets back what it gave, and
everybody writes to its own words. -/
def Proper (s : State) : Op → Prop
  | .kmalloc size => size ≤ 2 ^ 63 ∧ Few s.heap
  | .kfree ptr => (∃ x ∈ s.live, x.1 = ptr) ∧ Few s.heap
  | .write a _ => a % 8 = 0 ∧ ∃ x ∈ s.live, x.1 ≤ a ∧ a < x.1 + x.2

instance (s : State) (op : Op) : Decidable (Proper s op) := by
  cases op <;> unfold Proper <;> infer_instance

/-! ### What is expected -/

/-- The headers chained from an address up to the null pointer. -/
inductive Linked (h : Heap) : Nat → List Nat → Prop where
  | nil : Linked h 0 []
  | cons {p : Nat} {ps : List Nat} (nonzero : p ≠ 0) (rest : Linked h (h.next p) ps) :
      Linked h p (p :: ps)

/-- Every block ends where the next one begins, the last one at `e`, and no two
neighbours are free. -/
def Tiled (h : Heap) (e : Nat) : Prop :=
  ∃ ps, Linked h h.heapStart ps ∧
    (ps ++ [e]).IsChain (fun p q => p + headerSize + h.size p = q) ∧
    ps.IsChain fun p q => h.free p = 0 ∨ h.free q = 0

/-- The bytes behind a pointer that `kmalloc` returned. -/
def Heap.room (h : Heap) (ptr : Nat) : Nat := h.size (ptr - headerSize)

/-- The regions of the live allocations are disjoint, aligned, below `e` and large
enough. -/
structure Served (s : State) (e : Nat) : Prop where
  disjoint : s.live.Pairwise fun x y =>
    x.1 + s.heap.room x.1 ≤ y.1 ∨ y.1 + s.heap.room y.1 ≤ x.1
  aligned : ∀ x ∈ s.live, x.1 % 8 = 0
  inside : ∀ x ∈ s.live, s.heap.heapStart + headerSize ≤ x.1 ∧ x.1 + s.heap.room x.1 ≤ e
  enough : ∀ x ∈ s.live, x.2 ≤ s.heap.room x.1

/-- There is one block; it is free and has `n` bytes. -/
structure Single (h : Heap) (n : Nat) : Prop where
  linked : Linked h h.heapStart [h.heapStart]
  free : h.free h.heapStart ≠ 0
  size : h.size h.heapStart = n

end AtmKoala.Kmalloc
