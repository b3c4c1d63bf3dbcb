import LionOS.Heap.Separation

/-!
# Runs of the heap, call by call

A run remembers the calls it made and the states it made them in, latest first. What
one call does to the free list is said here once, over the list that memory holds up
to the null pointer.
-/

namespace LionOS.Heap

open Lib Relation

/-- What a step of a run does. -/
inductive Call where
  | alloc (l : Layout)
  | dealloc (a : Alloc)
  | write

/-- The call `c` leads from `w` to a world. -/
inductive Makes (w : World) : Call → World → Prop
  | alloc {l : Layout} {p : Nat} {h : KernelHeap} (hc : w.heap.allocLayout l = some (p, h)) :
      Makes w (.alloc l) ⟨h, if p = 0 then w.live else ⟨p, l⟩ :: w.live⟩
  | dealloc {pre post : List Alloc} {a : Alloc} {h : KernelHeap} (hl : w.live = pre ++ a :: post)
      (hc : w.heap.deallocLayout a.ptr a.layout = some h) : Makes w (.dealloc a) ⟨h, pre ++ post⟩
  | write {m : Mem} (hm : ∀ x, (∀ a ∈ w.live, ¬ a.payload.Holds x) → m x = w.heap.mem x) :
      Makes w .write ⟨{ w.heap with mem := m }, w.live⟩

/-- A run from `w₀`: the calls it has made, each with the state it was made in, and the
state it has come to. -/
inductive Run (w₀ : World) : List (World × Call) → World → Prop
  | start : Run w₀ [] w₀
  | call {past : List (World × Call)} {w w' : World} {c : Call} (hrun : Run w₀ past w)
      (hc : Makes w c w') : Run w₀ ((w, c) :: past) w'

variable {base size : Nat} {w w' : World} {free : List Block} {c : Call}
  {past : List (World × Call)}

/-- Runs that name their calls are the runs of the heap. -/
private theorem makes_iff_step : (∃ c, Makes w c w') ↔ Step w w' := by
  constructor
  · rintro ⟨c, hc⟩
    cases hc with
    | alloc hc => exact .alloc hc
    | dealloc hl hc => exact .dealloc hl hc
    | write hm => exact .write hm
  · intro hs
    cases hs with
    | alloc hc => exact ⟨_, .alloc hc⟩
    | dealloc hl hc => exact ⟨_, .dealloc hl hc⟩
    | write hm => exact ⟨_, .write hm⟩

theorem Run.reaches {w₀ : World} (hrun : Run w₀ past w) : ReflTransGen Step w₀ w := by
  induction hrun with
  | start => exact .refl
  | call _ hc ih => exact ih.tail (makes_iff_step.mp ⟨_, hc⟩)

/-- The blocks met from the head up to the null pointer. -/
structure FreeList (h : KernelHeap) (l : List Block) : Prop extends Rep h l where
  nonnull : 0 ∉ l.map Block.addr

/-- Blocks are determined by their addresses and the sizes in memory. -/
private theorem eq_of_addr_eq {h : KernelHeap} {l r : List Block}
    (hl : ∀ b ∈ l, h.sizeAt b.addr = b.size) (hr : ∀ b ∈ r, h.sizeAt b.addr = b.size)
    (he : l.map Block.addr = r.map Block.addr) : l = r := by
  induction l generalizing r with
  | nil => exact (List.map_eq_nil_iff.mp he.symm).symm
  | cons b l ih =>
    cases r with
    | nil => simp at he
    | cons c r =>
      obtain ⟨hbl, hl⟩ := List.forall_mem_cons.mp hl
      obtain ⟨hcr, hr⟩ := List.forall_mem_cons.mp hr
      obtain ⟨haddr, he⟩ := List.cons.inj he
      have hbc : b = c := by
        cases b with
        | mk ba bs =>
          cases c with
          | mk ca cs =>
            simp only at haddr hbl hcr
            rw [Block.mk.injEq]
            exact ⟨haddr, by rw [← hbl, ← hcr, haddr]⟩
      rw [hbc, ih hl hr he]

/-- A heap has one free list. -/
theorem FreeList.unique {h : KernelHeap} {l r : List Block} (hl : FreeList h l)
    (hr : FreeList h r) : l = r :=
  eq_of_addr_eq hl.sizes hr.sizes (hl.chain.unique hr.chain hl.nonnull hr.nonnull)

/-- The list of the invariant is the free list. -/
theorem Inv.freeList (ha : Arena base size) (hi : Inv base size w free) :
    FreeList w.heap free := by
  refine ⟨hi.rep, fun h0 => ?_⟩
  obtain ⟨b, hb, hb0⟩ := List.mem_map.mp h0
  have hlo := (hi.placed_free.inside b hb).1
  have := ha.base_ne
  omega

/-- An allocation for `l` takes block `b`, the first one in the free list that is large
enough; the blocks in front of it are `pre` and the ones behind it `post`. -/
structure FirstFit (h : KernelHeap) (l : Layout) (pre : List Block) (b : Block)
    (post : List Block) : Prop where
  align_le : l.align ≤ alignLimit
  list : FreeList h (pre ++ b :: post)
  smaller : ∀ c ∈ pre, c.size < l.need
  fits : l.need ≤ b.size

/-- The first fit is determined by the heap and the request. -/
theorem FirstFit.unique {h : KernelHeap} {l : Layout} {pre pre' post post' : List Block}
    {b b' : Block} (hf : FirstFit h l pre b post) (hf' : FirstFit h l pre' b' post') :
    pre = pre' ∧ b = b' ∧ post = post' := by
  have he := hf.list.unique hf'.list
  have hpre : ∀ c ∈ pre, decide (c.size < l.need) = true := by simpa using hf.smaller
  have hpre' : ∀ c ∈ pre', decide (c.size < l.need) = true := by simpa using hf'.smaller
  have htake := congrArg (List.takeWhile fun c : Block => decide (c.size < l.need)) he
  rw [List.takeWhile_append_of_pos hpre, List.takeWhile_append_of_pos hpre',
    List.takeWhile_cons_of_neg (by simpa using hf.fits),
    List.takeWhile_cons_of_neg (by simpa using hf'.fits), List.append_nil, List.append_nil] at htake
  subst htake
  simpa using he

/-- What one call does to the free list: an allocation that finds no block and a write
leave it as it is, an allocation replaces its first fit by the remainder, in front, and
a deallocation puts the block back where it belongs. -/
theorem Inv.makes (ha : Arena base size) (hi : Inv base size w free) (hc : Makes w c w') :
    ∃ free', Inv base size w' free' ∧
      ((free' = free ∧ w'.live = w.live ∧ ∀ l, c = .alloc l → ∀ pre b post,
          ¬ FirstFit w.heap l pre b post) ∨
        (∃ l pre b post p, c = .alloc l ∧ FirstFit w.heap l pre b post ∧
          free = pre ++ b :: post ∧ free' = tailOf b l.need ++ (pre ++ post) ∧
          w'.live = ⟨p, l⟩ :: w.live) ∨
        ∃ a lpre lpost pre post, c = .dealloc a ∧ w.live = lpre ++ a :: lpost ∧
          w'.live = lpre ++ lpost ∧ free = pre ++ post ∧ (∀ b ∈ pre, b.addr ≤ a.block.addr) ∧
          (∀ b ∈ post.head?, a.block.addr < b.addr) ∧ free' = released pre a.block post) := by
  have hfl := hi.freeList ha
  cases hc with
  | alloc hc =>
    rename_i l p h
    rcases hi.alloc_cases ha l with
      ⟨hal, pre, b, post, h', hfree, hpre, hfit, hc', hinv, -⟩ | ⟨hnone, hc'⟩
    · obtain ⟨rfl, rfl⟩ := Prod.mk.inj (Option.some.inj (hc.symm.trans hc'))
      have hne : b.addr + nodeSize ≠ 0 := by simp [nodeSize]
      rw [if_neg hne]
      exact ⟨_, hinv, Or.inr (Or.inl ⟨l, pre, b, post, _, rfl,
        ⟨hal, hfree ▸ hfl, hpre, hfit⟩, hfree, rfl, rfl⟩)⟩
    · obtain ⟨rfl, rfl⟩ := Prod.mk.inj (Option.some.inj (hc.symm.trans hc'))
      refine ⟨free, by simpa using hi, Or.inl ⟨rfl, by simp, ?_⟩⟩
      rintro l' hl' pre b post hff
      obtain rfl := Call.alloc.inj hl'
      rcases hnone with hal | hsmall
      · exact absurd hff.align_le (by omega)
      · have hb : b ∈ free := by
          rw [hfl.unique hff.list]
          simp
        exact absurd (hsmall b hb) (by have := hff.fits; omega)
  | dealloc hl hc =>
    rename_i lpre lpost a h
    obtain ⟨pre, post, h', hfree, hlo, hhi, hc', hinv, -⟩ := hi.dealloc_cases ha hl
    obtain rfl := Option.some.inj (hc.symm.trans hc')
    exact ⟨_, hinv, Or.inr (Or.inr ⟨a, lpre, lpost, pre, post, rfl, hl, rfl, hfree, hlo, hhi, rfl⟩)⟩
  | write hm =>
    exact ⟨free, hi.write hm, Or.inl ⟨rfl, rfl, fun l hl => by simp at hl⟩⟩

/-- The invariant holds in every state of every run. -/
theorem Run.inv {m : Mem} (ha : Arena base size) (hrun : Run (World.start m base size) past w) :
    ∃ free, Inv base size w free :=
  Inv.of_run ha hrun.reaches

/-- No allocation of a run halts. -/
theorem Run.alloc_some {m : Mem} (ha : Arena base size)
    (hrun : Run (World.start m base size) past w) (l : Layout) :
    ∃ p h, w.heap.allocLayout l = some (p, h) := by
  obtain ⟨free, hi⟩ := hrun.inv ha
  obtain ⟨p, h, hc, -⟩ := hi.alloc ha l
  exact ⟨p, h, hc⟩

end LionOS.Heap
