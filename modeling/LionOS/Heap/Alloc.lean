import LionOS.Heap.FreeList

/-!
# First-fit allocation

The walk of `alloc_layout` cuts the free list at the first adequate block. The
block is unlinked where it stands, and a remainder with room for a header goes
on the head of the list.
-/

namespace LionOS.Heap

open Lib

/-- Carving a block unlinks it and pushes its remainder, if any, in front. -/
theorem carve_spec {h : KernelHeap} {pre post : List Block} {b : Block} {lo hi need : Nat}
    (size : Nat)
    (hr : Rep h (pre ++ b :: post)) (hp : Placed lo hi (pre ++ b :: post)) (hhi : hi < 2 ^ 64)
    (hal : need % 8 = 0) (h16 : 16 ≤ need) (hfit : need ≤ b.size) :
    ∃ h', h.carve size need (linkAfter pre) b.addr = (b.addr + nodeSize, h') ∧
      Rep h' (tailOf b need ++ (pre ++ post)) ∧ h'.used = h.used + size ∧
      Frame h h' (pre ++ b :: post) := by
  have hcons : Placed lo hi (b :: (pre ++ post)) := hp.perm List.perm_middle
  have hpp : Placed lo hi (pre ++ post) := hcons.sublist (List.sublist_cons_self ..)
  have hbs : h.sizeAt b.addr = b.size := hr.sizes b (by simp)
  have htail : Seg h.next (h.next b.addr) (post.map Block.addr) 0 := (hr.chain_tail).2
  have hnext := h.next_lt b.addr
  have hz : ∀ c ∈ post, h.sizeAt c.addr = c.size := fun c hc => hr.sizes c (by simp [hc])
  have h1 := hr.relink hpp hnext htail hz
  have hf1 : Frame h (h.assign (linkAfter pre) (h.next b.addr)) (pre ++ b :: post) :=
    ⟨by simp, by simp, fun x hx => assign_linkAfter_mem
      (fun c hc => hp.room c (by simp [hc])) fun c hc => hx c (by simp [hc])⟩
  have h2 := h1.setUsed (h.used + size)
  by_cases ht : nodeSize ≤ b.size - need
  · have hsplit : Placed lo hi (⟨b.addr + need, b.size - need⟩ :: (pre ++ post)) :=
      (hcons.split hal h16 (by simp only [nodeSize] at ht; omega)).sublist
        (List.sublist_cons_self ..)
    have hpush := h2.push hsplit hhi (h2.head_lt hpp hhi)
    refine ⟨_, ?_, by rw [tailOf, if_pos ht]; exact hpush, by simp, ?_⟩
    · simp only [KernelHeap.carve, hbs, ht, if_true, KernelHeap.used_assign]
    · refine ⟨by simp, by simp, fun x hx => ?_⟩
      have hxb : ¬ b.Holds x := hx b (by simp)
      simp only [Block.Holds, Block.stop, nodeSize] at hxb ht
      have hxt : x < b.addr + need ∨ b.addr + need + 16 ≤ x := by omega
      rw [KernelHeap.mem_setHead, KernelHeap.writeNode_mem hxt]
      exact hf1.mem x hx
  · refine ⟨_, ?_, by rw [tailOf, if_neg ht]; exact h2, by simp, ?_⟩
    · simp only [KernelHeap.carve, hbs, ht, if_false, KernelHeap.used_assign]
    · exact ⟨by simp, by simp, hf1.mem⟩

/-- The first-fit walk stops at the first adequate block behind the link it starts
from, or runs off the end of the list. -/
private theorem allocLoop_spec {h : KernelHeap} {lo hi : Nat} (size need : Nat) (hlo : 0 < lo)
    (post pre : List Block) (turns : Nat) (hr : Rep h (pre ++ post))
    (hp : Placed lo hi (pre ++ post)) (hpre : ∀ c ∈ pre, c.size < need)
    (hn : post.length < turns) :
    (∃ mid b rest, pre ++ post = mid ++ b :: rest ∧ (∀ c ∈ mid, c.size < need) ∧
      need ≤ b.size ∧ h.allocLoop size need turns (linkAfter pre) =
        some (h.carve size need (linkAfter mid) b.addr)) ∨
    ((∀ c ∈ pre ++ post, c.size < need) ∧
      h.allocLoop size need turns (linkAfter pre) = some (0, h)) := by
  induction post generalizing pre turns with
  | nil =>
    obtain ⟨turns, rfl⟩ : ∃ k, turns = k + 1 := ⟨turns - 1, by simp at hn; omega⟩
    right
    refine ⟨by simpa using hpre, ?_⟩
    simp [KernelHeap.allocLoop, hr.deref_linkAfter]
  | cons b post ih =>
    obtain ⟨turns, rfl⟩ : ∃ k, turns = k + 1 := ⟨turns - 1, by simp at hn; omega⟩
    have hb0 : b.addr ≠ 0 := by
      have := (hp.inside b (by simp)).1
      omega
    have hbs : h.sizeAt b.addr = b.size := hr.sizes b (by simp)
    by_cases hfit : need ≤ b.size
    · left
      refine ⟨pre, b, post, rfl, hpre, hfit, ?_⟩
      simp [KernelHeap.allocLoop, hr.deref_linkAfter, hb0, hbs, hfit]
    · have hstep : h.allocLoop size need (turns + 1) (linkAfter pre) =
          h.allocLoop size need turns (linkAfter (pre ++ [b])) := by
        simp [KernelHeap.allocLoop, hr.deref_linkAfter, hb0, hbs, hfit]
      rw [hstep]
      have happ : pre ++ b :: post = pre ++ [b] ++ post := by simp
      rw [happ] at hr hp ⊢
      refine ih (pre ++ [b]) turns hr hp ?_ (by simpa using hn)
      intro c hc
      rcases List.mem_append.mp hc with hc | hc
      · exact hpre c hc
      · rw [List.mem_singleton.mp hc]
        omega

/-- Specification of `alloc_layout`: an adequate request takes the first block in
list order that is large enough; any other leaves the heap as it was. -/
theorem allocLayout_spec {h : KernelHeap} {free : List Block} (l : Layout) (hbase : 0 < h.base)
    (hend : h.base + h.size < 2 ^ 64) (hr : Rep h free)
    (hp : Placed h.base (h.base + h.size) free) :
    (l.align ≤ alignLimit ∧ ∃ pre b post h', free = pre ++ b :: post ∧
      (∀ c ∈ pre, c.size < l.need) ∧ l.need ≤ b.size ∧
      h.allocLayout l = some (b.addr + nodeSize, h') ∧
      Rep h' (tailOf b l.need ++ (pre ++ post)) ∧ h'.used = h.used + l.rounded ∧
      Frame h h' free) ∨
    ((alignLimit < l.align ∨ ∀ c ∈ free, c.size < l.need) ∧ h.allocLayout l = some (0, h)) := by
  by_cases hal : alignLimit < l.align
  · exact Or.inr ⟨Or.inl hal, by simp [KernelHeap.allocLayout, hal]⟩
  · have hlen := hp.length_le
    have heq : h.allocLayout l = h.allocLoop l.rounded l.need (h.size + 1) (linkAfter []) := by
      simp only [KernelHeap.allocLayout, hal, if_false]
      rfl
    rcases allocLoop_spec l.rounded l.need hbase free [] (h.size + 1) hr hp
      (by simp) (by omega) with ⟨pre, b, post, hfree, hpre, hfit, hw⟩ | ⟨hsmall, hw⟩
    · left
      simp only [List.nil_append] at hfree
      subst hfree
      obtain ⟨h', hc, hr', hu, hf⟩ :=
        carve_spec l.rounded hr hp hend l.need_aligned l.need_ge hfit
      exact ⟨by omega, pre, b, post, h', rfl, hpre, hfit, by rw [heq, hw, hc], hr', hu, hf⟩
    · exact Or.inr ⟨Or.inr hsmall, by rw [heq, hw]⟩

end LionOS.Heap
