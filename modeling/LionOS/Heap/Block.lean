import LionOS.Heap.KernelHeap
import LionOS.Lib.Bits
import Mathlib.Data.List.Perm.Basic
import Mathlib.Order.Interval.Finset.Nat

/-!
# Blocks of the arena

Free and live memory is accounted for in blocks: a header followed by a payload
of whole words. A list of blocks is placed when its members lie in the arena on
word boundaries and no two of them overlap. Placement survives every operation
the allocator performs on blocks: cutting one in two, dropping one, and joining
two neighbours.
-/

namespace LionOS.Heap

open Lib

/-- Payload bytes set aside for a layout. -/
def Layout.rounded (l : Layout) : Nat := alignUp l.size alignLimit

/-- Bytes carved out for a layout: the rounded payload and its header. -/
def Layout.need (l : Layout) : Nat := l.rounded + nodeSize

/-- Rounding up to the alignment limit, as arithmetic. -/
theorem Layout.rounded_eq (l : Layout) : l.rounded = (l.size + 7) / 8 * 8 := by
  have hsz := l.size_le
  have hmask : 2 ^ 64 - alignLimit = (2 ^ 61 - 1) * 2 ^ 3 := rfl
  rw [Layout.rounded, alignUp, hmask, and_field]
  simp only [alignLimit]
  omega

theorem Layout.need_aligned (l : Layout) : l.need % 8 = 0 := by
  simp only [Layout.need, l.rounded_eq, nodeSize]
  omega

theorem Layout.need_ge (l : Layout) : 16 ≤ l.need := by
  simp only [Layout.need, nodeSize]
  omega

/-- Carved sizes are `usize` values: rounding and adding the header never overflow. -/
theorem Layout.need_lt (l : Layout) : l.need < 2 ^ 64 := by
  have hsz := l.size_le
  simp only [Layout.need, l.rounded_eq, nodeSize]
  omega

/-- A run of bytes of the arena, its header included. -/
structure Block where
  addr : Nat
  size : Nat
  deriving DecidableEq, Repr

namespace Block

/-- The first address behind the block. -/
def stop (b : Block) : Nat := b.addr + b.size

/-- The two blocks share no byte. -/
def Apart (b c : Block) : Prop := b.stop ≤ c.addr ∨ c.stop ≤ b.addr

instance (b c : Block) : Decidable (b.Apart c) := inferInstanceAs (Decidable (_ ∨ _))

instance : Std.Symm Apart := ⟨fun _ _ h => Or.symm h⟩

/-- Byte `x` belongs to the block. -/
def Holds (b : Block) (x : Nat) : Prop := b.addr ≤ x ∧ x < b.stop

end Block

/-- The blocks lie in `[lo, hi)`, on 8-byte boundaries, with room for a header
each, and no two of them overlap. -/
structure Placed (lo hi : Nat) (l : List Block) : Prop where
  inside : ∀ b ∈ l, lo ≤ b.addr ∧ b.stop ≤ hi
  aligned : ∀ b ∈ l, b.addr % 8 = 0 ∧ b.size % 8 = 0
  room : ∀ b ∈ l, 16 ≤ b.size
  apart : l.Pairwise Block.Apart

namespace Placed

variable {lo hi : Nat} {l l' rest : List Block} {b c : Block}

/-- Placement does not depend on the order in which blocks are listed. -/
theorem perm (h : Placed lo hi l) (hp : l.Perm l') : Placed lo hi l' where
  inside b hb := h.inside b (hp.mem_iff.mpr hb)
  aligned b hb := h.aligned b (hp.mem_iff.mpr hb)
  room b hb := h.room b (hp.mem_iff.mpr hb)
  apart := h.apart.perm hp fun hbc => Or.symm hbc

/-- Forgetting blocks keeps the others placed. -/
theorem sublist (h : Placed lo hi l) (hs : l'.Sublist l) : Placed lo hi l' where
  inside b hb := h.inside b (hs.subset hb)
  aligned b hb := h.aligned b (hs.subset hb)
  room b hb := h.room b (hs.subset hb)
  apart := h.apart.sublist hs

/-- Two blocks listed at different places are apart. -/
theorem apart_of_mem (h : Placed lo hi l) (hb : b ∈ l) (hc : c ∈ l) (hne : b ≠ c) : b.Apart c :=
  h.apart.forall hb hc hne

/-- Placed blocks start at pairwise distinct addresses. -/
theorem nodup_addr (h : Placed lo hi l) : (l.map Block.addr).Nodup := by
  rw [List.nodup_iff_pairwise_ne, List.pairwise_map]
  refine (List.Pairwise.and_mem.mp h.apart).imp ?_
  rintro b c ⟨hb, hc, hbc⟩ he
  have hrb := h.room b hb
  have hrc := h.room c hc
  simp only [Block.Apart, Block.stop] at hbc
  omega

/-- An arena of `n` bytes has at most `n` blocks. -/
theorem length_le (h : Placed lo hi l) : l.length ≤ hi - lo := by
  have hsub : (l.map Block.addr).toFinset ⊆ Finset.Ico lo hi := by
    intro x hx
    obtain ⟨b, hb, rfl⟩ := List.mem_map.mp (List.mem_toFinset.mp hx)
    have hi' := h.inside b hb
    have hr := h.room b hb
    simp only [Block.stop] at hi'
    exact Finset.mem_Ico.mpr ⟨hi'.1, by omega⟩
  have hcard := Finset.card_le_card hsub
  rwa [List.toFinset_card_of_nodup h.nodup_addr, List.length_map, Nat.card_Ico] at hcard

/-- Shrinking a block to an aligned part of it with room for a header. -/
theorem shrink (h : Placed lo hi (b :: rest)) (hlo : b.addr ≤ c.addr) (hhi : c.stop ≤ b.stop)
    (hal : c.addr % 8 = 0 ∧ c.size % 8 = 0) (hr : 16 ≤ c.size) : Placed lo hi (c :: rest) where
  inside := by
    have hb := h.inside b (List.mem_cons_self ..)
    intro d hd
    rcases List.mem_cons.mp hd with rfl | hd
    · omega
    · exact h.inside d (List.mem_cons_of_mem _ hd)
  aligned := List.forall_mem_cons.mpr ⟨hal, (List.forall_mem_cons.mp h.aligned).2⟩
  room := List.forall_mem_cons.mpr ⟨hr, (List.forall_mem_cons.mp h.room).2⟩
  apart := by
    obtain ⟨hb, hrest⟩ := List.pairwise_cons.mp h.apart
    refine List.pairwise_cons.mpr ⟨?_, hrest⟩
    intro d hd
    have hbd := hb d hd
    simp only [Block.Apart] at hbd ⊢
    omega

/-- Cutting a block in two places both parts. -/
theorem split (h : Placed lo hi (b :: rest)) {n : Nat} (hn : n % 8 = 0) (h1 : 16 ≤ n)
    (h2 : n + 16 ≤ b.size) :
    Placed lo hi (⟨b.addr, n⟩ :: ⟨b.addr + n, b.size - n⟩ :: rest) := by
  have hal := h.aligned b (List.mem_cons_self ..)
  have htail : Placed lo hi (⟨b.addr + n, b.size - n⟩ :: rest) := by
    apply h.shrink <;> simp only [Block.stop] <;> omega
  have hhead : Placed lo hi (⟨b.addr, n⟩ :: rest) := by
    apply h.shrink <;> simp only [Block.stop] <;> omega
  refine ⟨List.forall_mem_cons.mpr ⟨hhead.inside _ (List.mem_cons_self ..), htail.inside⟩,
    List.forall_mem_cons.mpr ⟨hhead.aligned _ (List.mem_cons_self ..), htail.aligned⟩,
    List.forall_mem_cons.mpr ⟨h1, htail.room⟩, List.pairwise_cons.mpr ⟨?_, htail.apart⟩⟩
  refine List.forall_mem_cons.mpr ⟨Or.inl ?_, (List.pairwise_cons.mp hhead.apart).1⟩
  simp only [Block.stop, le_refl]

/-- Joining two adjacent blocks places the union. -/
theorem join (h : Placed lo hi (b :: c :: rest)) (hadj : b.stop = c.addr) :
    Placed lo hi (⟨b.addr, b.size + c.size⟩ :: rest) := by
  obtain ⟨hb, hc, hi'⟩ := (by simpa only [List.forall_mem_cons] using h.inside)
  obtain ⟨ab, ac, ha'⟩ := (by simpa only [List.forall_mem_cons] using h.aligned)
  obtain ⟨rb, rc, hr'⟩ := (by simpa only [List.forall_mem_cons] using h.room)
  obtain ⟨pb, hp⟩ := List.pairwise_cons.mp h.apart
  obtain ⟨pc, hp'⟩ := List.pairwise_cons.mp hp
  simp only [Block.stop] at hadj hb hc
  refine ⟨List.forall_mem_cons.mpr ⟨?_, hi'⟩, List.forall_mem_cons.mpr ⟨?_, ha'⟩,
    List.forall_mem_cons.mpr ⟨?_, hr'⟩, List.pairwise_cons.mpr ⟨?_, hp'⟩⟩
  · simp only [Block.stop]; omega
  · simp only; omega
  · simp only; omega
  · intro d hd
    have hbd := pb d (List.mem_cons_of_mem _ hd)
    have hcd := pc d hd
    have hrd := hr' d hd
    simp only [Block.Apart, Block.stop] at hbd hcd ⊢
    omega

end Placed

/-- The block behind a payload pointer: its header and its rounded payload. -/
def Layout.blockAt (l : Layout) (ptr : Nat) : Block := ⟨ptr - nodeSize, l.need⟩

/-- Header words of blocks that are apart do not overlap. -/
theorem Block.Apart.words {b c : Block} (h : b.Apart c) (hb : 16 ≤ b.size) (hc : 16 ≤ c.size)
    {i j : Nat} (hi : i ≤ 8) (hj : j ≤ 8) :
    c.addr + j + 8 ≤ b.addr + i ∨ b.addr + i + 8 ≤ c.addr + j := by
  simp only [Block.Apart, Block.stop] at h
  omega

/-- The remainder of a carved block that goes back on the list. -/
def tailOf (b : Block) (need : Nat) : List Block :=
  if nodeSize ≤ b.size - need then [⟨b.addr + need, b.size - need⟩] else []

/-- Merge the freed block with the block behind it when they are adjacent. -/
def joinRight (b : Block) : List Block → Block × List Block
  | [] => (b, [])
  | c :: post => if b.stop = c.addr then (⟨b.addr, b.size + c.size⟩, post) else (b, c :: post)

theorem joinRight_addr (b : Block) (post : List Block) : (joinRight b post).1.addr = b.addr := by
  cases post with
  | nil => rfl
  | cons c post =>
    simp only [joinRight]
    split <;> rfl

/-- Put the block behind `pre`, merging it with the last of them when adjacent. -/
def joinLeft (pre : List Block) (b : Block) (post : List Block) : List Block :=
  match pre.getLast? with
  | none => b :: post
  | some p =>
    if p.stop = b.addr then pre.dropLast ++ ⟨p.addr, p.size + b.size⟩ :: post
    else pre ++ b :: post

/-- The free list after putting `b` back between `pre` and `post`. -/
def released (pre : List Block) (b : Block) (post : List Block) : List Block :=
  joinLeft pre (joinRight b post).1 (joinRight b post).2

/-- Merging to the right keeps the other blocks apart from the result. -/
theorem Placed.joinRight {lo hi : Nat} {b : Block} {pre post ctx : List Block}
    (h : Placed lo hi (b :: (pre ++ post) ++ ctx)) :
    Placed lo hi ((joinRight b post).1 :: (pre ++ (joinRight b post).2) ++ ctx) := by
  cases post with
  | nil => exact h
  | cons c post =>
    by_cases hadj : b.stop = c.addr
    · simp only [Heap.joinRight, hadj, if_true]
      have hp : (b :: (pre ++ c :: post) ++ ctx).Perm (b :: c :: (pre ++ post ++ ctx)) := by
        simp
      exact (h.perm hp).join hadj
    · simpa only [Heap.joinRight, hadj, if_false] using h

/-- Merging to the left keeps the other blocks apart from the result. -/
theorem Placed.joinLeft {lo hi : Nat} {b : Block} {pre post ctx : List Block}
    (h : Placed lo hi (b :: (pre ++ post) ++ ctx)) :
    Placed lo hi (joinLeft pre b post ++ ctx) := by
  rcases List.eq_nil_or_concat pre with rfl | ⟨pre, p, rfl⟩
  · exact h
  · simp only [List.concat_eq_append] at h ⊢
    simp only [Heap.joinLeft, List.getLast?_concat, List.dropLast_concat]
    by_cases hadj : p.stop = b.addr
    · rw [if_pos hadj]
      have hp : (b :: (pre ++ [p] ++ post) ++ ctx).Perm (p :: b :: (pre ++ post ++ ctx)) := by
        have h1 : (b :: (pre ++ p :: (post ++ ctx))).Perm (b :: p :: (pre ++ (post ++ ctx))) :=
          List.Perm.cons b List.perm_middle
        simpa using h1.trans (List.Perm.swap ..)
      refine ((h.perm hp).join hadj).perm ?_
      have h1 : (pre ++ ⟨p.addr, p.size + b.size⟩ :: (post ++ ctx)).Perm
          (⟨p.addr, p.size + b.size⟩ :: (pre ++ (post ++ ctx))) := List.perm_middle
      simpa using h1.symm
    · rw [if_neg hadj]
      refine h.perm ?_
      have h1 : (pre ++ [p] ++ b :: (post ++ ctx)).Perm (b :: (pre ++ [p] ++ (post ++ ctx))) :=
        List.perm_middle
      simpa using h1.symm

/-- Putting a block back keeps free and live blocks placed. -/
theorem Placed.released {lo hi : Nat} {b : Block} {pre post ctx : List Block}
    (h : Placed lo hi (b :: (pre ++ post) ++ ctx)) :
    Placed lo hi (released pre b post ++ ctx) :=
  h.joinRight.joinLeft

end LionOS.Heap
