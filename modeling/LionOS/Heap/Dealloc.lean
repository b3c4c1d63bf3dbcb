import LionOS.Heap.FreeList

/-!
# Deallocation with merging

The walk of `dealloc_layout` stops at the first free block above the freed one.
The rebuilt header first absorbs its right neighbour, then is absorbed by its
left neighbour or linked in; in between it is pending, a chain of its own next
to a list that is still intact.
-/

namespace LionOS.Heap

open Lib

section Dealloc

variable {h : KernelHeap} {lo hi : Nat} {b : Block} {pre post rest : List Block}

/-- The header built at `b` heads the chain of `rest`, and the list in front of
and behind it is still represented. -/
structure Pending (h : KernelHeap) (pre post : List Block) (b : Block) (rest : List Block) :
    Prop where
  rep : Rep h (pre ++ post)
  size : h.sizeAt b.addr = b.size
  chain : Seg h.next (h.next b.addr) (rest.map Block.addr) 0
  sizes : ∀ c ∈ rest, h.sizeAt c.addr = c.size

/-- Redirecting a block apart from the list to its tail leaves the header pending. -/
theorem Rep.pending_setNext (hr : Rep h (pre ++ post)) (hp : Placed lo hi (b :: (pre ++ post)))
    (hrest : rest.Sublist post) {v : Nat} (hv : v < 2 ^ 64)
    (hs : Seg h.next v (rest.map Block.addr) 0) {n : Nat} (hb : h.sizeAt b.addr = n) :
    Pending (h.setNext b.addr v) pre post ⟨b.addr, n⟩ rest := by
  have hr' := hr.setNext hp v
  refine ⟨hr', KernelHeap.sizeAt_setNext.trans hb, ?_, fun c hc => hr'.sizes c ?_⟩
  · rw [KernelHeap.next_setNext hv]
    refine hs.congr fun a ha => ?_
    obtain ⟨c, hc, rfl⟩ := List.mem_map.mp ha
    exact KernelHeap.next_setNext_of_apart
      (Rep.header_apart hp (List.mem_append_right _ (hrest.subset hc)) (i := 0) (j := 0)
        (by omega) (by omega))
  · exact List.mem_append_right _ (hrest.subset hc)

/-- The right merge leaves the merged header pending in front of the remaining list. -/
theorem rightMerge_spec (hlo : 0 < lo) (hhi : hi < 2 ^ 64) (hr : Rep h (pre ++ post))
    (hb : h.sizeAt b.addr = b.size) (hp : Placed lo hi (b :: (pre ++ post))) :
    Pending (h.rightMerge b.addr (headAddr post)) pre post (joinRight b post).1
      (joinRight b post).2 := by
  have hchain := hr.chain_tail
  rw [hr.deref_linkAfter] at hchain
  cases post with
  | nil =>
    have he : h.rightMerge b.addr (headAddr []) = h.setNext b.addr 0 := by
      simp [KernelHeap.rightMerge]
    rw [he]
    exact hr.pending_setNext hp (List.Sublist.refl _) (Nat.two_pow_pos 64) hchain hb
  | cons c post =>
    rw [headAddr_cons] at hchain ⊢
    have hc : c ∈ b :: (pre ++ c :: post) := by simp
    have hc0 := (hp.inside c hc).1
    have hch := (hp.inside c hc).2
    have hbh := (hp.inside b (List.mem_cons_self ..)).2
    simp only [Block.stop] at hch hbh
    have hcs : h.sizeAt c.addr = c.size := hr.sizes c (by simp)
    have hsum : b.size + c.size < 2 ^ 64 := by
      have hap := (List.pairwise_cons.mp hp.apart).1 c (by simp)
      simp only [Block.Apart, Block.stop] at hap
      omega
    have hnc : (h.setSize b.addr (b.size + c.size)).next c.addr = h.next c.addr := by
      have hw := Rep.header_apart hp (show c ∈ pre ++ c :: post by simp) (i := 8) (j := 0)
        le_rfl (by omega)
      exact read64_write64_of_apart _ _ hw
    by_cases hadj : b.stop = c.addr
    · have he : h.rightMerge b.addr c.addr =
          (h.setSize b.addr (b.size + c.size)).setNext b.addr (h.next c.addr) := by
        have hc0' : c.addr ≠ 0 := by omega
        have hadj' : b.addr + b.size = c.addr := hadj
        simp only [KernelHeap.rightMerge, hb, hcs, hadj', ne_eq, hc0', not_false_eq_true,
          and_self, if_true, hnc]
      rw [he, joinRight, if_pos hadj]
      have hr2 := hr.setSize hp (b.size + c.size)
      refine hr2.pending_setNext hp (List.sublist_cons_self ..) (h.next_lt c.addr) ?_
        (KernelHeap.sizeAt_setSize hsum)
      rw [← hnc]
      exact hr2.chain_tail.2
    · have he : h.rightMerge b.addr c.addr = h.setNext b.addr c.addr := by
        have hadj' : ¬ b.addr + b.size = c.addr := hadj
        simp [KernelHeap.rightMerge, hb, hadj']
      rw [he, joinRight, if_neg hadj]
      exact hr.pending_setNext hp (List.Sublist.refl _) (by omega) hchain hb

/-- Enlarging a listed block in place is represented by the enlarged block. -/
theorem Rep.grow {p : Block} (hr : Rep h (pre ++ p :: post)) (hp : Placed lo hi (pre ++ p :: post))
    {n : Nat} (hn : n < 2 ^ 64) : Rep (h.setSize p.addr n) (pre ++ ⟨p.addr, n⟩ :: post) := by
  have hcons : Placed lo hi (p :: (pre ++ post)) := hp.perm List.perm_middle
  have hnext : ∀ c ∈ pre ++ post, (h.setSize p.addr n).next c.addr = h.next c.addr :=
    fun c hc => read64_write64_of_apart _ _
      (Rep.header_apart hcons hc (j := 0) le_rfl (by omega))
  have hsize : ∀ c ∈ pre ++ post, (h.setSize p.addr n).sizeAt c.addr = h.sizeAt c.addr :=
    fun c hc => read64_write64_of_apart _ _ (Rep.header_apart hcons hc le_rfl le_rfl)
  constructor
  · have hc := hr.chain
    simp only [List.map_append, List.map_cons] at hc ⊢
    refine hc.congr fun a ha => ?_
    rcases List.mem_append.mp ha with ha | ha
    · obtain ⟨c, hc, rfl⟩ := List.mem_map.mp ha
      exact hnext c (List.mem_append_left _ hc)
    · rcases List.mem_cons.mp ha with rfl | ha
      · exact KernelHeap.next_setSize
      · obtain ⟨c, hc, rfl⟩ := List.mem_map.mp ha
        exact hnext c (List.mem_append_right _ hc)
  · intro c hc
    rcases List.mem_append.mp hc with hc | hc
    · rw [hsize c (List.mem_append_left _ hc)]
      exact hr.sizes c (List.mem_append_left _ hc)
    · rcases List.mem_cons.mp hc with rfl | hc
      · exact KernelHeap.sizeAt_setSize hn
      · rw [hsize c (List.mem_append_right _ hc)]
        exact hr.sizes c (by simp [hc])

/-- Joining two adjacent blocks of a placed list, the first at the end of `pre`. -/
theorem Placed.join_pre {p : Block} (hp : Placed lo hi (b :: (pre ++ [p] ++ rest)))
    (hadj : p.stop = b.addr) : Placed lo hi (pre ++ [⟨p.addr, p.size + b.size⟩] ++ rest) := by
  have hfront : (b :: (pre ++ [p] ++ rest)).Perm (p :: b :: (pre ++ rest)) := by
    have hswap : (b :: (pre ++ p :: rest)).Perm (b :: p :: (pre ++ rest)) :=
      List.Perm.cons b List.perm_middle
    simpa using hswap.trans (List.Perm.swap ..)
  have hback : (pre ++ ⟨p.addr, p.size + b.size⟩ :: rest).Perm
      (⟨p.addr, p.size + b.size⟩ :: (pre ++ rest)) := List.perm_middle
  exact ((hp.perm hfront).join hadj).perm (by simpa using hback.symm)

/-- A predecessor that ends where the pending block starts absorbs it. -/
theorem Pending.absorb {p : Block} (hhi : hi < 2 ^ 64) (hd : Pending h (pre ++ [p]) post b rest)
    (hpost : Placed lo hi (pre ++ [p] ++ post)) (hp : Placed lo hi (b :: (pre ++ [p] ++ rest)))
    (hadj : p.stop = b.addr) :
    Rep ((h.setSize p.addr (p.size + b.size)).assign
      (linkAfter (pre ++ [⟨p.addr, p.size + b.size⟩])) (h.next b.addr))
      (pre ++ [⟨p.addr, p.size + b.size⟩] ++ rest) := by
  have hbh := (hp.inside b (List.mem_cons_self ..)).2
  have hadj' : p.addr + p.size = b.addr := hadj
  simp only [Block.stop] at hbh
  have hsplit : pre ++ [p] ++ post = pre ++ p :: post := by simp
  have hgrow := (hsplit ▸ hd.rep).grow (hsplit ▸ hpost) (n := p.size + b.size) (by omega)
  have hap : ∀ c ∈ rest, p.addr + 16 ≤ c.addr ∨ c.addr + 16 ≤ p.addr := by
    intro c hc
    have hpc : p.Apart c := by
      have htail := hp.sublist (List.sublist_cons_self ..)
      exact (List.pairwise_append.mp htail.apart).2.2 p (by simp) c hc
    have hcr := hp.room c (by simp [hc])
    have hpr := hp.room p (by simp)
    simp only [Block.Apart, Block.stop] at hpc
    omega
  have hchain : Seg (h.setSize p.addr (p.size + b.size)).next (h.next b.addr)
      (rest.map Block.addr) 0 := by
    refine hd.chain.congr fun a ha => ?_
    obtain ⟨c, hc, rfl⟩ := List.mem_map.mp ha
    have := hap c hc
    exact KernelHeap.next_setSize_of_apart (by omega)
  have hsizes : ∀ c ∈ rest, (h.setSize p.addr (p.size + b.size)).sizeAt c.addr = c.size := by
    intro c hc
    have := hap c hc
    rw [KernelHeap.sizeAt_setSize_of_apart (by omega)]
    exact hd.sizes c hc
  have hsplit' : pre ++ ⟨p.addr, p.size + b.size⟩ :: post =
      pre ++ [⟨p.addr, p.size + b.size⟩] ++ post := by simp
  exact (hsplit' ▸ hgrow).relink (hp.join_pre hadj) (h.next_lt b.addr) hchain hsizes

/-- The left merge links the pending block in, or lets the predecessor absorb it. -/
theorem leftMerge_spec (hlo : 0 < lo) (hhi : hi < 2 ^ 64) (hd : Pending h pre post b rest)
    (hpost : Placed lo hi (pre ++ post)) (hp : Placed lo hi (b :: (pre ++ rest))) :
    Rep (h.leftMerge b.addr (predAddr pre) (linkAfter pre)) (joinLeft pre b rest) := by
  have hbh := (hp.inside b (List.mem_cons_self ..)).2
  simp only [Block.stop] at hbh
  have hlink : Rep (h.assign (linkAfter pre) b.addr) (pre ++ b :: rest) :=
    hd.rep.relink (hp.perm List.perm_middle.symm) (by omega) ⟨rfl, hd.chain⟩
      (List.forall_mem_cons.mpr ⟨hd.size, hd.sizes⟩)
  rcases List.eq_nil_or_concat pre with rfl | ⟨pre, p, rfl⟩
  · simpa [KernelHeap.leftMerge, joinLeft] using hlink
  · simp only [List.concat_eq_append] at hd hpost hp hlink ⊢
    have hpm : p ∈ b :: (pre ++ [p] ++ rest) := by simp
    have hp0 := (hp.inside p hpm).1
    have hpr := hp.room p hpm
    have hps : h.sizeAt p.addr = p.size := hd.rep.sizes p (by simp)
    simp only [predAddr_concat, joinLeft, List.getLast?_concat, List.dropLast_concat]
    by_cases hadj : p.stop = b.addr
    · have hadj' : p.addr + p.size = b.addr := hadj
      have hbp : (h.setSize p.addr (p.size + b.size)).next b.addr = h.next b.addr :=
        KernelHeap.next_setSize_of_apart (by omega)
      have he : h.leftMerge b.addr p.addr (linkAfter (pre ++ [p])) =
          (h.setSize p.addr (p.size + b.size)).assign
            (linkAfter (pre ++ [⟨p.addr, p.size + b.size⟩])) (h.next b.addr) := by
        have hp0' : p.addr ≠ 0 := by omega
        simp only [KernelHeap.leftMerge, hps, hd.size, hadj', ne_eq, hp0', not_false_eq_true,
          and_self, if_true, hbp, linkAfter_concat, KernelHeap.assign]
      rw [if_pos hadj, he]
      simpa using hd.absorb hhi hpost hp hadj
    · rw [if_neg hadj]
      have he : h.leftMerge b.addr p.addr (linkAfter (pre ++ [p])) =
          h.assign (linkAfter (pre ++ [p])) b.addr := by
        have hadj' : ¬ p.addr + p.size = b.addr := hadj
        simp [KernelHeap.leftMerge, hps, hadj']
      rw [he]
      exact hlink

/-- The insertion walk stops at the first block behind its link that lies above the
freed one, or at the end of the list. -/
theorem deallocLoop_spec (hlo : 0 < lo) (node : Nat) (post pre : List Block) (turns : Nat)
    (hr : Rep h (pre ++ post)) (hp : Placed lo hi (pre ++ post))
    (hpre : ∀ c ∈ pre, c.addr ≤ node) (hn : post.length < turns) :
    ∃ mid rest, pre ++ post = mid ++ rest ∧ (∀ c ∈ mid, c.addr ≤ node) ∧
      (∀ c ∈ rest.head?, node < c.addr) ∧
      h.deallocLoop node turns (predAddr pre) (linkAfter pre) =
        some ((h.rightMerge node (headAddr rest)).leftMerge node (predAddr mid)
          (linkAfter mid)) := by
  induction post generalizing pre turns with
  | nil =>
    obtain ⟨turns, rfl⟩ : ∃ k, turns = k + 1 := ⟨turns - 1, by simp at hn; omega⟩
    refine ⟨pre, [], rfl, hpre, by simp, ?_⟩
    simp [KernelHeap.deallocLoop, hr.deref_linkAfter]
  | cons c post ih =>
    obtain ⟨turns, rfl⟩ : ∃ k, turns = k + 1 := ⟨turns - 1, by simp at hn; omega⟩
    have hc0 : c.addr ≠ 0 := by
      have := (hp.inside c (by simp)).1
      omega
    by_cases hlt : node < c.addr
    · refine ⟨pre, c :: post, rfl, hpre, by simpa using hlt, ?_⟩
      simp [KernelHeap.deallocLoop, hr.deref_linkAfter, hlt]
    · have hstep : h.deallocLoop node (turns + 1) (predAddr pre) (linkAfter pre) =
          h.deallocLoop node turns (predAddr (pre ++ [c])) (linkAfter (pre ++ [c])) := by
        simp [KernelHeap.deallocLoop, hr.deref_linkAfter, hlt, hc0]
      rw [hstep]
      have happ : pre ++ c :: post = pre ++ [c] ++ post := by simp
      rw [happ] at hr hp ⊢
      refine ih (pre ++ [c]) turns hr hp ?_ (by simpa using hn)
      intro d hd
      rcases List.mem_append.mp hd with hd | hd
      · exact hpre d hd
      · rw [List.mem_singleton.mp hd]
        omega

/-- The right merge writes only the header of the freed block. -/
theorem rightMerge_frame {node next x : Nat} (hx : x < node ∨ node + 16 ≤ x) :
    (h.rightMerge node next).mem x = h.mem x := by
  unfold KernelHeap.rightMerge
  split
  · exact (KernelHeap.setNext_mem hx).trans (KernelHeap.setSize_mem hx)
  · exact KernelHeap.setNext_mem hx

/-- The left merge writes only the header of the last block passed. -/
theorem leftMerge_frame {node x : Nat} (hroom : ∀ c ∈ pre, 16 ≤ c.size)
    (hx : ∀ c ∈ pre, ¬ c.Holds x) :
    (h.leftMerge node (predAddr pre) (linkAfter pre)).mem x = h.mem x := by
  unfold KernelHeap.leftMerge
  split
  next hc =>
    rcases List.eq_nil_or_concat pre with rfl | ⟨pre, p, rfl⟩
    · exact absurd rfl hc.1
    · have hpm : p ∈ pre.concat p := by simp
      have hout := Block.outside_header (hroom p hpm) (hx p hpm)
      simp only [List.concat_eq_append, predAddr_concat]
      exact (KernelHeap.setNext_mem hout).trans (KernelHeap.setSize_mem hout)
  next => exact assign_linkAfter_mem hroom hx

@[simp] theorem base_rightMerge (node next : Nat) : (h.rightMerge node next).base = h.base := by
  unfold KernelHeap.rightMerge
  split <;> simp

@[simp] theorem size_rightMerge (node next : Nat) : (h.rightMerge node next).size = h.size := by
  unfold KernelHeap.rightMerge
  split <;> simp

@[simp] theorem used_rightMerge (node next : Nat) : (h.rightMerge node next).used = h.used := by
  unfold KernelHeap.rightMerge
  split <;> simp

@[simp] theorem base_leftMerge (node pred : Nat) (prev : Link) :
    (h.leftMerge node pred prev).base = h.base := by
  unfold KernelHeap.leftMerge
  split <;> simp

@[simp] theorem size_leftMerge (node pred : Nat) (prev : Link) :
    (h.leftMerge node pred prev).size = h.size := by
  unfold KernelHeap.leftMerge
  split <;> simp

@[simp] theorem used_leftMerge (node pred : Nat) (prev : Link) :
    (h.leftMerge node pred prev).used = h.used := by
  unfold KernelHeap.leftMerge
  split <;> simp

end Dealloc

/-- Specification of `dealloc_layout` for a block apart from the free list: it is put
back in front of the first free block above it, merged with its neighbours there. -/
theorem deallocLayout_spec {h : KernelHeap} {free : List Block} (l : Layout) (ptr : Nat)
    (hbase : 0 < h.base) (hend : h.base + h.size < 2 ^ 64) (hr : Rep h free)
    (hp : Placed h.base (h.base + h.size) (l.blockAt ptr :: free)) :
    ∃ pre post h', free = pre ++ post ∧ (∀ c ∈ pre, c.addr ≤ (l.blockAt ptr).addr) ∧
      (∀ c ∈ post.head?, (l.blockAt ptr).addr < c.addr) ∧
      h.deallocLayout ptr l = some h' ∧ Rep h' (released pre (l.blockAt ptr) post) ∧
      h'.used = h.used - l.rounded ∧ Frame h h' (l.blockAt ptr :: free) := by
  have hfree : Placed h.base (h.base + h.size) free := hp.sublist (List.sublist_cons_self ..)
  have hlen := hfree.length_le
  have hr1 := hr.writeNode hp { next := 0, size := l.need }
  obtain ⟨pre, post, hsplit, hpre, hpost, hw⟩ := deallocLoop_spec hbase
    (l.blockAt ptr).addr free [] (h.size + 1) hr1 hfree (by simp) (by omega)
  simp only [List.nil_append] at hsplit
  subst hsplit
  have hsize : (h.writeNode (l.blockAt ptr).addr { next := 0, size := l.need }).sizeAt
      (l.blockAt ptr).addr = (l.blockAt ptr).size := KernelHeap.sizeAt_writeNode l.need_lt
  have hpend := rightMerge_spec hbase hend hr1 hsize hp
  have hplaced : Placed h.base (h.base + h.size)
      ((joinRight (l.blockAt ptr) post).1 :: (pre ++ (joinRight (l.blockAt ptr) post).2)) := by
    have hctx : Placed h.base (h.base + h.size) (l.blockAt ptr :: (pre ++ post) ++ []) := by
      simpa using hp
    simpa using hctx.joinRight
  have hleft := leftMerge_spec hbase hend hpend hfree hplaced
  rw [joinRight_addr] at hleft
  refine ⟨pre, post, _, rfl, hpre, hpost, ?_, hleft.setUsed (h.used - l.rounded), by simp,
    by simp, by simp, fun x hx => ?_⟩
  · have heq : h.deallocLayout ptr l =
        ((h.writeNode (l.blockAt ptr).addr { next := 0, size := l.need }).deallocLoop
          (l.blockAt ptr).addr (h.size + 1) (predAddr []) (linkAfter [])).map
            fun h => h.setUsed (h.used - l.rounded) := rfl
    rw [heq, hw, Option.map_some, used_leftMerge, used_rightMerge, KernelHeap.used_writeNode]
  · have hnode := Block.outside_header (hp.room _ (List.mem_cons_self ..))
      (hx _ (List.mem_cons_self ..))
    rw [KernelHeap.mem_setUsed, leftMerge_frame (fun c hc => hfree.room c (by simp [hc]))
      (fun c hc => hx c (by simp [hc])), rightMerge_frame hnode, KernelHeap.writeNode_mem hnode]

end LionOS.Heap
