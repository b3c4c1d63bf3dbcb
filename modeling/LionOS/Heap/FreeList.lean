import LionOS.Heap.Block
import LionOS.Lib.Chain

/-!
# The free list as a list of blocks

Memory represents a list of blocks when following `next` from the head meets
exactly their addresses before null and every header stores its block's size.
Rewriting the link behind some of the blocks splices a new tail in, and header
writes to a block apart from the list leave it represented.
-/

namespace LionOS.Heap

open Lib

/-- Following `next` from the head meets exactly the blocks of `l`, and every
header stores the size of its block. -/
structure Rep (h : KernelHeap) (l : List Block) : Prop where
  chain : Seg h.next h.head (l.map Block.addr) 0
  sizes : ∀ b ∈ l, h.sizeAt b.addr = b.size

/-- The pointer a list of blocks is reached by. -/
def headAddr (l : List Block) : Nat := (l.map Block.addr).headD 0

/-- The link behind the blocks already passed. -/
def linkAfter (pre : List Block) : Link :=
  match pre.getLast? with
  | none => .head
  | some b => .next b.addr

/-- The `pred` pointer behind the blocks already passed. -/
def predAddr (pre : List Block) : Nat :=
  match pre.getLast? with
  | none => 0
  | some b => b.addr

@[simp] theorem linkAfter_nil : linkAfter [] = .head := rfl

@[simp] theorem linkAfter_concat (pre : List Block) (b : Block) :
    linkAfter (pre ++ [b]) = .next b.addr := by
  simp [linkAfter]

@[simp] theorem predAddr_nil : predAddr [] = 0 := rfl

@[simp] theorem predAddr_concat (pre : List Block) (b : Block) :
    predAddr (pre ++ [b]) = b.addr := by
  simp [predAddr]

@[simp] theorem headAddr_nil : headAddr [] = 0 := rfl

@[simp] theorem headAddr_cons (b : Block) (l : List Block) : headAddr (b :: l) = b.addr := rfl

namespace Rep

variable {h h' : KernelHeap} {lo hi v : Nat} {pre post post' l : List Block} {b : Block}

/-- Representation only reads the head and the headers of the listed blocks. -/
theorem congr (hr : Rep h l) (hh : h'.head = h.head)
    (hn : ∀ b ∈ l, h'.next b.addr = h.next b.addr)
    (hs : ∀ b ∈ l, h'.sizeAt b.addr = h.sizeAt b.addr) : Rep h' l where
  chain := by
    rw [hh]
    refine hr.chain.congr fun a ha => ?_
    obtain ⟨b, hb, rfl⟩ := List.mem_map.mp ha
    exact hn b hb
  sizes b hb := (hs b hb).trans (hr.sizes b hb)

/-- The part of the list behind a link is a chain of its own. -/
theorem chain_tail (hr : Rep h (pre ++ post)) :
    Seg h.next (h.deref (linkAfter pre)) (post.map Block.addr) 0 := by
  rcases List.eq_nil_or_concat pre with rfl | ⟨pre, b, rfl⟩
  · exact hr.chain
  · have hc := hr.chain
    simp only [List.concat_eq_append, List.map_append, List.map_cons, List.map_nil] at hc
    obtain ⟨x, hx, ht⟩ := seg_append.mp hc
    obtain ⟨y, -, -, hy⟩ := seg_append.mp hx
    simp only [List.concat_eq_append, linkAfter_concat, KernelHeap.deref]
    rw [seg_nil.mp hy]
    exact ht

/-- The link behind `pre` holds the address of what follows. -/
theorem deref_linkAfter (hr : Rep h (pre ++ post)) : h.deref (linkAfter pre) = headAddr post :=
  hr.chain_tail.head_eq

/-- Storing a new tail into a link keeps what precedes it and splices the tail in. -/
theorem relink (hr : Rep h (pre ++ post)) (hp : Placed lo hi (pre ++ post')) (hv : v < 2 ^ 64)
    (hs : Seg h.next v (post'.map Block.addr) 0) (hz : ∀ b ∈ post', h.sizeAt b.addr = b.size) :
    Rep (h.assign (linkAfter pre) v) (pre ++ post') := by
  rcases List.eq_nil_or_concat pre with rfl | ⟨pre, b, rfl⟩
  · exact ⟨hs, hz⟩
  · simp only [List.concat_eq_append] at hr hp ⊢
    simp only [linkAfter_concat, KernelHeap.assign]
    have hb : b ∈ pre ++ [b] ++ post' := by simp
    have hnext : ∀ c ∈ pre ++ [b] ++ post', c ≠ b →
        (h.setNext b.addr v).next c.addr = h.next c.addr := by
      intro c hc hne
      exact read64_write64_of_apart _ _
        ((hp.apart_of_mem hb hc hne.symm).words (hp.room b hb) (hp.room c hc) (i := 0) (j := 0)
          (by omega) (by omega))
    have hsize : ∀ c ∈ pre ++ [b] ++ post', (h.setNext b.addr v).sizeAt c.addr =
        h.sizeAt c.addr := by
      intro c hc
      apply read64_write64_of_apart
      by_cases hne : c = b
      · subst hne; omega
      · exact (hp.apart_of_mem hb hc (Ne.symm hne)).words (hp.room b hb) (hp.room c hc) (i := 0)
          (by omega) (by omega)
    have hnd : b ∉ pre ∧ b ∉ post' := by
      have hd := hp.nodup_addr.of_map
      simp only [List.append_assoc, List.singleton_append] at hd
      have := List.nodup_append.mp hd
      have h2 := List.nodup_cons.mp this.2.1
      exact ⟨fun hm => this.2.2 b hm b (List.mem_cons_self ..) rfl, h2.1⟩
    constructor
    · have hc := hr.chain
      simp only [List.map_append, List.map_cons, List.map_nil] at hc ⊢
      obtain ⟨x, hx, -⟩ := seg_append.mp hc
      refine seg_append.mpr ⟨v, hx.redirect ?_ ?_, hs.congr ?_⟩
      · intro a ha
        obtain ⟨c, hc, rfl⟩ := List.mem_map.mp ha
        exact hnext c (by simp [hc]) fun he => hnd.1 (he ▸ hc)
      · exact read64_write64 _ _ hv
      · intro a ha
        obtain ⟨c, hc, rfl⟩ := List.mem_map.mp ha
        exact hnext c (by simp [hc]) fun he => hnd.2 (he ▸ hc)
    · intro c hc
      rw [hsize c hc]
      rcases List.mem_append.mp hc with hc | hc
      · exact hr.sizes c (List.mem_append_left _ hc)
      · exact hz c hc

/-- The header words of a block apart from the list overlap none of its headers. -/
theorem header_apart (hp : Placed lo hi (b :: l)) {c : Block} (hc : c ∈ l) {i j : Nat}
    (hi : i ≤ 8) (hj : j ≤ 8) : c.addr + j + 8 ≤ b.addr + i ∨ b.addr + i + 8 ≤ c.addr + j :=
  ((List.pairwise_cons.mp hp.apart).1 c hc).words (hp.room b (List.mem_cons_self ..))
    (hp.room c (List.mem_cons_of_mem _ hc)) hi hj

/-- Rewriting the header of a block apart from the list leaves it represented. -/
theorem setNext (hr : Rep h l) (hp : Placed lo hi (b :: l)) (v : Nat) :
    Rep (h.setNext b.addr v) l := by
  refine hr.congr (h.head_setNext b.addr v) (fun c hc => ?_) fun c hc => ?_
  · exact read64_write64_of_apart _ _ (header_apart hp hc (i := 0) (j := 0) (by omega) (by omega))
  · exact read64_write64_of_apart _ _ (header_apart hp hc (i := 0) (by omega) le_rfl)

theorem setSize (hr : Rep h l) (hp : Placed lo hi (b :: l)) (v : Nat) :
    Rep (h.setSize b.addr v) l := by
  refine hr.congr (h.head_setSize b.addr v) (fun c hc => ?_) fun c hc => ?_
  · exact read64_write64_of_apart _ _ (header_apart hp hc (j := 0) le_rfl (by omega))
  · exact read64_write64_of_apart _ _ (header_apart hp hc le_rfl le_rfl)

theorem writeNode (hr : Rep h l) (hp : Placed lo hi (b :: l)) (n : Node) :
    Rep (h.writeNode b.addr n) l :=
  (hr.setNext hp n.next).setSize hp n.size

end Rep

namespace KernelHeap

variable {h : KernelHeap} {a b v x : Nat} {n : Node}

theorem next_lt (h : KernelHeap) (a : Nat) : h.next a < 2 ^ 64 := read64_lt _ _

theorem next_setNext (hv : v < 2 ^ 64) : (h.setNext a v).next a = v := read64_write64 _ _ hv

theorem sizeAt_setSize (hv : v < 2 ^ 64) : (h.setSize a v).sizeAt a = v := read64_write64 _ _ hv

theorem next_setSize : (h.setSize a v).next a = h.next a :=
  read64_write64_of_apart _ _ (by omega)

theorem sizeAt_setNext : (h.setNext a v).sizeAt a = h.sizeAt a :=
  read64_write64_of_apart _ _ (by omega)

theorem next_writeNode (hv : n.next < 2 ^ 64) : (h.writeNode a n).next a = n.next := by
  rw [writeNode, next_setSize, next_setNext hv]

theorem sizeAt_writeNode (hv : n.size < 2 ^ 64) : (h.writeNode a n).sizeAt a = n.size := by
  rw [writeNode, sizeAt_setSize hv]

/-- Header updates of one block leave the header fields of a block apart from it. -/
theorem next_setNext_of_apart (hab : a + 8 ≤ b ∨ b + 8 ≤ a) :
    (h.setNext b v).next a = h.next a :=
  read64_write64_of_apart _ _ hab

theorem next_setSize_of_apart (hab : a + 8 ≤ b ∨ b + 16 ≤ a) :
    (h.setSize b v).next a = h.next a :=
  read64_write64_of_apart _ _ (by omega)

theorem sizeAt_setSize_of_apart (hab : a + 8 ≤ b ∨ b + 8 ≤ a) :
    (h.setSize b v).sizeAt a = h.sizeAt a :=
  read64_write64_of_apart _ _ (by omega)

/-- Every header update stays inside the 16 bytes of its header. -/
theorem setNext_mem (hx : x < a ∨ a + 16 ≤ x) : (h.setNext a v).mem x = h.mem x :=
  write64_of_outside _ _ (by omega)

theorem setSize_mem (hx : x < a ∨ a + 16 ≤ x) : (h.setSize a v).mem x = h.mem x :=
  write64_of_outside _ _ (by omega)

theorem writeNode_mem (hx : x < a ∨ a + 16 ≤ x) : (h.writeNode a n).mem x = h.mem x :=
  (setSize_mem hx).trans (setNext_mem hx)

end KernelHeap

/-- A byte outside a block with room for a header is outside that header. -/
theorem Block.outside_header {b : Block} (hr : 16 ≤ b.size) {x : Nat} (hx : ¬ b.Holds x) :
    x < b.addr ∨ b.addr + 16 ≤ x := by
  simp only [Block.Holds, Block.stop] at hx
  omega

/-- Storing through the link behind `pre` writes only inside blocks of `pre`. -/
theorem assign_linkAfter_mem {h : KernelHeap} {pre : List Block} {v x : Nat}
    (hroom : ∀ b ∈ pre, 16 ≤ b.size) (hx : ∀ b ∈ pre, ¬ b.Holds x) :
    (h.assign (linkAfter pre) v).mem x = h.mem x := by
  rcases List.eq_nil_or_concat pre with rfl | ⟨pre, b, rfl⟩
  · rfl
  · have hb : b ∈ pre.concat b := by simp
    simp only [List.concat_eq_append, linkAfter_concat]
    exact KernelHeap.setNext_mem (Block.outside_header (hroom b hb) (hx b hb))

/-- What both calls leave alone besides the header words of the blocks `touched`. -/
structure Frame (h h' : KernelHeap) (touched : List Block) : Prop where
  base : h'.base = h.base
  size : h'.size = h.size
  mem : ∀ x, (∀ b ∈ touched, ¬ b.Holds x) → h'.mem x = h.mem x

theorem Frame.trans {h₁ h₂ h₃ : KernelHeap} {t : List Block} (h : Frame h₁ h₂ t)
    (h' : Frame h₂ h₃ t) : Frame h₁ h₃ t :=
  ⟨h'.base.trans h.base, h'.size.trans h.size, fun x hx => (h'.mem x hx).trans (h.mem x hx)⟩

/-- Representation does not read the accounting. -/
theorem Rep.setUsed {h : KernelHeap} {l : List Block} (hr : Rep h l) (v : Nat) :
    Rep (h.setUsed v) l :=
  ⟨hr.chain, hr.sizes⟩

/-- Pushing a fresh header on the head of the list. -/
theorem Rep.push {h : KernelHeap} {l : List Block} {b : Block} {lo hi : Nat} (hr : Rep h l)
    (hp : Placed lo hi (b :: l)) (hhi : hi < 2 ^ 64) (hhead : h.head < 2 ^ 64) :
    Rep ((h.writeNode b.addr { next := h.head, size := b.size }).setHead b.addr) (b :: l) := by
  have hw := hr.writeNode hp { next := h.head, size := b.size }
  have hb := (hp.inside b (List.mem_cons_self ..)).2
  simp only [Block.stop] at hb
  have hsize : b.size < 2 ^ 64 := by omega
  refine ⟨⟨rfl, ?_⟩, List.forall_mem_cons.mpr ⟨?_, hw.sizes⟩⟩
  · rw [KernelHeap.next_setHead, KernelHeap.next_writeNode hhead]
    exact hw.chain
  · rw [KernelHeap.sizeAt_setHead, KernelHeap.sizeAt_writeNode hsize]

/-- The head of a represented list is an address of the arena, or null. -/
theorem Rep.head_lt {h : KernelHeap} {l : List Block} {lo hi : Nat} (hr : Rep h l)
    (hp : Placed lo hi l) (hhi : hi < 2 ^ 64) : h.head < 2 ^ 64 := by
  rw [show h.head = headAddr l from hr.chain.head_eq]
  cases l with
  | nil => simp
  | cons b l =>
    have hb := (hp.inside b (List.mem_cons_self ..)).2
    simp only [Block.stop] at hb
    simp only [headAddr_cons]
    omega

end LionOS.Heap
