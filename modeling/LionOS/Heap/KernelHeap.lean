import LionOS.Lib.Memory

/-!
# The kernel heap: free-list allocator

The state of `KernelHeap` together with the memory its arena lives in. A free
block begins with a 16-byte header, the `next` pointer at offset 0 and the
whole block size at offset 8, both read and written through memory. The two
list walks carry the `prev` pointer-to-pointer of the source as a `Link`, and
are bounded by a number of turns: `none` stands for a walk that has not come
to an end.

Addresses and sizes are `usize` values. A `Layout` bounds its size by
`isize::MAX`, so rounding it up and adding a header cannot overflow.
-/

namespace LionOS.Heap

open Lib

/-- Header stored at the start of each free block. -/
structure Node where
  next : Nat
  size : Nat
  deriving DecidableEq, Repr

/-- `Node::SIZE`: two machine words. -/
def nodeSize : Nat := 16

/-- `ALIGN`: the largest supported alignment. -/
def alignLimit : Nat := 8

/-- Round `v` up to a multiple of the power of two `a`; the mask is `!(a - 1)`. -/
def alignUp (v a : Nat) : Nat := (v + a - 1) &&& (2 ^ 64 - a)

/-- `core::alloc::Layout`: the alignment is a power of two, and the size rounded
up to it is at most `isize::MAX`. -/
structure Layout where
  size : Nat
  align : Nat
  /-- Alignments are powers of two. -/
  align_pow : ∃ k, align = 2 ^ k
  /-- The bound checked by `Layout::from_size_align`. -/
  size_le : size + align ≤ 2 ^ 63

/-- The allocator state and the memory holding its headers. -/
structure KernelHeap where
  /-- First free block, or the null pointer. -/
  head : Nat
  /-- Allocated payload bytes, rounded to `alignLimit`. -/
  used : Nat
  base : Nat
  size : Nat
  /-- The memory that the arena is a part of. -/
  mem : Mem

/-- A `*mut *mut Node`: the head field of the state, or the `next` field of a node. -/
inductive Link where
  | head
  | next (node : Nat)
  deriving DecidableEq, Repr

namespace KernelHeap

/-- `(*node).next`. -/
def next (h : KernelHeap) (node : Nat) : Nat := read64 h.mem node

/-- `(*node).size`. -/
def sizeAt (h : KernelHeap) (node : Nat) : Nat := read64 h.mem (node + 8)

/-- `state.head = v`. -/
def setHead (h : KernelHeap) (v : Nat) : KernelHeap := { h with head := v }

/-- `state.used = v`. -/
def setUsed (h : KernelHeap) (v : Nat) : KernelHeap := { h with used := v }

/-- `(*node).next = v`. -/
def setNext (h : KernelHeap) (node v : Nat) : KernelHeap :=
  { h with mem := write64 h.mem node v }

/-- `(*node).size = v`. -/
def setSize (h : KernelHeap) (node v : Nat) : KernelHeap :=
  { h with mem := write64 h.mem (node + 8) v }

/-- `*node = n`. -/
def writeNode (h : KernelHeap) (node : Nat) (n : Node) : KernelHeap :=
  (h.setNext node n.next).setSize node n.size

/-- `*prev`. -/
def deref (h : KernelHeap) : Link → Nat
  | .head => h.head
  | .next node => h.next node

/-- `*prev = v`. -/
def assign (h : KernelHeap) : Link → Nat → KernelHeap
  | .head, v => h.setHead v
  | .next node, v => h.setNext node v

/-- One free block covering the whole arena `[base, base + size)`. -/
def init (m : Mem) (base size : Nat) : KernelHeap :=
  writeNode { head := base, used := 0, base := base, size := size, mem := m } base
    { next := 0, size := size }

/-- Hand out the block at `node`, of which `prev` is the incoming link: unlink it,
then push a tail large enough for a header back on the head of the list. -/
def carve (h : KernelHeap) (size need : Nat) (prev : Link) (node : Nat) : Nat × KernelHeap :=
  let blockSize := h.sizeAt node
  let payload := node + nodeSize
  let h := h.assign prev (h.next node)
  let h := h.setUsed (h.used + size)
  let tailBytes := blockSize - need
  if nodeSize ≤ tailBytes then
    let tail := node + need
    let h := h.writeNode tail { next := h.head, size := tailBytes }
    (payload, h.setHead tail)
  else (payload, h)

/-- The first-fit walk of `alloc_layout`, for at most `turns` turns of the loop. -/
def allocLoop (h : KernelHeap) (size need : Nat) : (turns : Nat) → Link → Option (Nat × KernelHeap)
  | 0, _ => none
  | turns + 1, prev =>
    let node := h.deref prev
    if node = 0 then some (0, h)
    else if need ≤ h.sizeAt node then some (h.carve size need prev node)
    else allocLoop h size need turns (.next node)

/-- `alloc_layout`: the payload address, or null, and the heap afterwards. -/
def allocLayout (h : KernelHeap) (layout : Layout) : Option (Nat × KernelHeap) :=
  if alignLimit < layout.align then some (0, h)
  else
    let size := alignUp layout.size alignLimit
    h.allocLoop size (size + nodeSize) (h.size + 1) .head

/-- Point the rebuilt block at `node` to its successor, absorbing it when adjacent. -/
def rightMerge (h : KernelHeap) (node next : Nat) : KernelHeap :=
  if next ≠ 0 ∧ node + h.sizeAt node = next then
    let h := h.setSize node (h.sizeAt node + h.sizeAt next)
    h.setNext node (h.next next)
  else h.setNext node next

/-- Let the predecessor absorb the block at `node` when adjacent, else link it in. -/
def leftMerge (h : KernelHeap) (node pred : Nat) (prev : Link) : KernelHeap :=
  if pred ≠ 0 ∧ pred + h.sizeAt pred = node then
    let h := h.setSize pred (h.sizeAt pred + h.sizeAt node)
    h.setNext pred (h.next node)
  else h.assign prev node

/-- The insertion walk of `dealloc_layout`, for at most `turns` turns of the loop. -/
def deallocLoop (h : KernelHeap) (node : Nat) :
    (turns : Nat) → (pred : Nat) → Link → Option KernelHeap
  | 0, _, _ => none
  | turns + 1, pred, prev =>
    let next := h.deref prev
    if next = 0 ∨ node < next then some ((h.rightMerge node next).leftMerge node pred prev)
    else deallocLoop h node turns next (.next next)

/-- `dealloc_layout`: rebuild the header in front of `ptr` and put the block back. -/
def deallocLayout (h : KernelHeap) (ptr : Nat) (layout : Layout) : Option KernelHeap :=
  let size := alignUp layout.size alignLimit
  let node := ptr - nodeSize
  let h := h.writeNode node { next := 0, size := size + nodeSize }
  (h.deallocLoop node (h.size + 1) 0 .head).map fun h => h.setUsed (h.used - size)

section

variable (h : KernelHeap) (a v : Nat) (n : Node)

@[simp] theorem next_setHead : (h.setHead v).next a = h.next a := rfl
@[simp] theorem sizeAt_setHead : (h.setHead v).sizeAt a = h.sizeAt a := rfl
@[simp] theorem head_setHead : (h.setHead v).head = v := rfl
@[simp] theorem used_setHead : (h.setHead v).used = h.used := rfl
@[simp] theorem base_setHead : (h.setHead v).base = h.base := rfl
@[simp] theorem size_setHead : (h.setHead v).size = h.size := rfl
@[simp] theorem mem_setHead : (h.setHead v).mem = h.mem := rfl
@[simp] theorem next_setUsed : (h.setUsed v).next a = h.next a := rfl
@[simp] theorem sizeAt_setUsed : (h.setUsed v).sizeAt a = h.sizeAt a := rfl
@[simp] theorem head_setUsed : (h.setUsed v).head = h.head := rfl
@[simp] theorem used_setUsed : (h.setUsed v).used = v := rfl
@[simp] theorem base_setUsed : (h.setUsed v).base = h.base := rfl
@[simp] theorem size_setUsed : (h.setUsed v).size = h.size := rfl
@[simp] theorem mem_setUsed : (h.setUsed v).mem = h.mem := rfl
@[simp] theorem head_setNext : (h.setNext a v).head = h.head := rfl
@[simp] theorem used_setNext : (h.setNext a v).used = h.used := rfl
@[simp] theorem base_setNext : (h.setNext a v).base = h.base := rfl
@[simp] theorem size_setNext : (h.setNext a v).size = h.size := rfl
@[simp] theorem head_setSize : (h.setSize a v).head = h.head := rfl
@[simp] theorem used_setSize : (h.setSize a v).used = h.used := rfl
@[simp] theorem base_setSize : (h.setSize a v).base = h.base := rfl
@[simp] theorem size_setSize : (h.setSize a v).size = h.size := rfl
@[simp] theorem head_writeNode : (h.writeNode a n).head = h.head := rfl
@[simp] theorem used_writeNode : (h.writeNode a n).used = h.used := rfl
@[simp] theorem base_writeNode : (h.writeNode a n).base = h.base := rfl
@[simp] theorem size_writeNode : (h.writeNode a n).size = h.size := rfl

@[simp] theorem used_assign (k : Link) : (h.assign k v).used = h.used := by cases k <;> rfl
@[simp] theorem base_assign (k : Link) : (h.assign k v).base = h.base := by cases k <;> rfl
@[simp] theorem size_assign (k : Link) : (h.assign k v).size = h.size := by cases k <;> rfl

end

end KernelHeap

end LionOS.Heap
