import LionOS.Heap.Conservation

/-!
# Failing allocations and the count of used bytes

The first-fit walk comes to the end of the free list only past every block, so it fails
exactly when none is large enough, and it has written nothing by then. The count of used
bytes changes with the list of live allocations, so the saturating subtraction of
`dealloc_layout` never saturates.
-/

namespace LionOS.Heap

open Lib Relation

namespace KernelHeap

variable {h h' : KernelHeap} {size need turns p : Nat} {prev : Link}

theorem fst_carve (h : KernelHeap) (size need : Nat) (prev : Link) (node : Nat) :
    (h.carve size need prev node).1 = node + nodeSize := by
  unfold carve
  dsimp only
  split
  · rfl
  · rfl

private theorem used_carve (h : KernelHeap) (size need : Nat) (prev : Link) (node : Nat) :
    (h.carve size need prev node).2.used = h.used + size := by
  unfold carve
  dsimp only
  split
  · simp
  · simp

/-- The first-fit walk changes nothing, or it hands out a block and counts it. -/
private theorem allocLoop_used (hc : h.allocLoop size need turns prev = some (p, h')) :
    p = 0 ∧ h' = h ∨ p ≠ 0 ∧ h'.used = h.used + size := by
  induction turns generalizing prev with
  | zero => simp [allocLoop] at hc
  | succ turns ih =>
    rw [allocLoop] at hc
    split at hc
    · obtain ⟨rfl, rfl⟩ := Prod.mk.inj (Option.some.inj hc)
      exact .inl ⟨rfl, rfl⟩
    split at hc
    · have hcarve := Option.some.inj hc
      have hfst := h.fst_carve size need prev (h.deref prev)
      have hused := h.used_carve size need prev (h.deref prev)
      rw [hcarve] at hfst hused
      refine .inr ⟨?_, hused⟩
      simp only [nodeSize] at hfst
      omega
    · exact ih hc

theorem allocLayout_used {l : Layout} (hc : h.allocLayout l = some (p, h')) :
    p = 0 ∧ h' = h ∨ p ≠ 0 ∧ h'.used = h.used + l.rounded := by
  unfold allocLayout at hc
  split at hc
  · obtain ⟨rfl, rfl⟩ := Prod.mk.inj (Option.some.inj hc)
    exact .inl ⟨rfl, rfl⟩
  · exact allocLoop_used hc

theorem deallocLoop_used {node pred : Nat} (hc : h.deallocLoop node turns pred prev = some h') :
    h'.used = h.used := by
  induction turns generalizing pred prev with
  | zero => simp [deallocLoop] at hc
  | succ turns ih =>
    rw [deallocLoop] at hc
    split at hc
    · obtain rfl := Option.some.inj hc
      rw [used_leftMerge, used_rightMerge]
    · exact ih hc

theorem deallocLayout_used {ptr : Nat} {l : Layout} (hc : h.deallocLayout ptr l = some h') :
    h'.used = h.used - l.rounded := by
  obtain ⟨h₁, hloop, rfl⟩ := Option.map_eq_some_iff.mp hc
  rw [used_setUsed, deallocLoop_used hloop]
  rfl

end KernelHeap

/-- The rounded payloads of the live allocations. -/
def usedBytes (live : List Alloc) : Nat := (live.map fun a => alignUp a.layout.size alignLimit).sum

variable {base size : Nat} {w w' : World} {past : List (World × Call)}

@[simp] theorem usedBytes_cons (a : Alloc) (l : List Alloc) :
    usedBytes (a :: l) = a.layout.rounded + usedBytes l := by
  simp [usedBytes, Layout.rounded]

@[simp] theorem usedBytes_append (l r : List Alloc) :
    usedBytes (l ++ r) = usedBytes l + usedBytes r := by
  simp [usedBytes]

theorem usedBytes_le_liveBytes (l : List Alloc) : usedBytes l ≤ liveBytes l := by
  induction l with
  | nil => exact le_rfl
  | cons a l ih =>
    rw [usedBytes_cons, liveBytes_cons, Layout.need]
    omega

/-- One call keeps the count. -/
theorem Makes.used_eq {c : Call} (hc : Makes w c w') (h : w.heap.used = usedBytes w.live) :
    w'.heap.used = usedBytes w'.live := by
  cases hc with
  | alloc hc =>
    rcases KernelHeap.allocLayout_used hc with ⟨rfl, rfl⟩ | ⟨hp, hused⟩
    · simpa using h
    · dsimp only
      rw [if_neg hp, usedBytes_cons, hused, h]
      exact Nat.add_comm ..
  | dealloc hl hc =>
    rw [hl, usedBytes_append, usedBytes_cons] at h
    rw [usedBytes_append, KernelHeap.deallocLayout_used hc]
    omega
  | write hm => exact h

/-- In every state of every run the count is that of the live allocations. -/
theorem Run.used_eq {m : Mem} (hrun : Run (World.start m base size) past w) :
    w.heap.used = usedBytes w.live := by
  induction hrun with
  | start => rfl
  | call _ hc ih => exact hc.used_eq ih

/-- The count never exceeds the arena, so that adding to it does not overflow. -/
theorem Run.used_le {m : Mem} (ha : Arena base size)
    (hrun : Run (World.start m base size) past w) : w.heap.used ≤ size := by
  obtain ⟨free, -, hle, -⟩ := hrun.accounts ha
  have hlive := usedBytes_le_liveBytes w.live
  rw [hrun.used_eq]
  omega

/-- **Allocation failure is exact and atomic.** In every state of every run and for every
layout, `alloc_layout` returns, and it returns null if and only if the alignment exceeds 8
or every block of the free list is smaller than the rounded size and a header; then the
heap is as it was. Otherwise it takes the first adequate block in list order. The count of
used bytes is the sum of the rounded sizes of the live allocations, so that taking one of
them off never saturates. -/
theorem alloc_fails_iff {m : Mem} (ha : Arena base size)
    (hrun : Run (World.start m base size) past w) :
    ∃ free, FreeList w.heap free ∧
      (∀ l : Layout, ∃ p h, w.heap.allocLayout l = some (p, h) ∧
        (p = 0 ↔ 8 < l.align ∨ ∀ b ∈ free, b.size < alignUp l.size 8 + 16) ∧
        (p = 0 → h = w.heap) ∧
        (p ≠ 0 → ∃ pre b post, free = pre ++ b :: post ∧
          (∀ c ∈ pre, c.size < alignUp l.size 8 + 16) ∧ alignUp l.size 8 + 16 ≤ b.size ∧
          p = b.addr + 16)) ∧
      w.heap.used = (w.live.map fun a => alignUp a.layout.size 8).sum ∧
      ∀ a ∈ w.live, alignUp a.layout.size 8 ≤ w.heap.used := by
  obtain ⟨free, hi⟩ := hrun.inv ha
  have hused := hrun.used_eq
  refine ⟨free, hi.freeList ha, fun l => ?_, hused, fun a hmem => ?_⟩
  · rcases hi.alloc_cases ha l with
      ⟨hal, pre, b, post, h, hfree, hpre, hfit, hc, -⟩ | ⟨hfail, hc⟩
    · refine ⟨_, h, hc, ⟨fun hp => absurd hp (Nat.succ_ne_zero _), ?_⟩,
        fun hp => absurd hp (Nat.succ_ne_zero _),
        fun _ => ⟨pre, b, post, hfree, hpre, hfit, rfl⟩⟩
      rintro (hbig | hsmall)
      · exact absurd hal (Nat.not_le_of_lt hbig)
      · exact absurd hfit (Nat.not_le_of_lt (hsmall b (by simp [hfree])))
    · exact ⟨0, w.heap, hc, ⟨fun _ => hfail, fun _ => rfl⟩, fun _ => rfl, fun hp => absurd rfl hp⟩
  · obtain ⟨pre, post, hl⟩ := List.append_of_mem hmem
    rw [hused, hl, usedBytes_append, usedBytes_cons, Layout.rounded]
    change alignUp a.layout.size 8 ≤ usedBytes pre + (alignUp a.layout.size 8 + usedBytes post)
    omega

/-- An arena of 48 bytes after an allocation of 16: what is left is too small for another
eight bytes. -/
theorem alloc_fails_iff_small :
    ∃ past w free, Run (World.start (fun _ => 0) 4096 48) past w ∧ FreeList w.heap free ∧
      w.heap.used = (w.live.map fun a => alignUp a.layout.size 8).sum ∧ w.live.length = 1 ∧
      ∃ p h, w.heap.allocLayout (wordLayout 8 (by decide)) = some (p, h) ∧
        (p = 0 ↔ 8 < 8 ∨ ∀ b ∈ free, b.size < alignUp 8 8 + 16) ∧ (p = 0 → h = w.heap) := by
  have ha : Arena 4096 48 := by constructor <;> decide
  let w₀ := World.start (fun _ => 0) 4096 48
  let l := wordLayout 16 (by decide)
  obtain ⟨p, h, hc, -⟩ := (Inv.start (fun _ => 0) ha).alloc ha l
  have hrun : Run w₀ [(w₀, .alloc l)] _ := .call .start (.alloc hc)
  have hp : p ≠ 0 := by
    have hfst : (w₀.heap.allocLayout l).map Prod.fst = some 4112 := by decide +kernel
    rw [hc] at hfst
    simp only [Option.map_some, Option.some.injEq] at hfst
    omega
  obtain ⟨free, hfree, halloc, hused, -⟩ := alloc_fails_iff ha hrun
  obtain ⟨p', h', hc', hnull, hsame, -⟩ := halloc (wordLayout 8 (by decide))
  have hlive : w₀.live = [] := rfl
  exact ⟨_, _, free, hrun, hfree, hused, by simp [hp, hlive], p', h', hc', hnull, hsame⟩

end LionOS.Heap
