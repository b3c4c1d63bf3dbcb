import LionOS.Heap.Alloc
import LionOS.Heap.Dealloc
import Mathlib.Logic.Relation

/-!
# Separation of free and live memory over whole runs

A run starts from an initialised heap and makes any number of calls, in any
order: allocations of any layout, deallocations of live pointers with their own
layout, and in between arbitrary writes of the owners into their payloads. The
invariant is that memory represents a free list whose blocks, together with the
blocks of the live allocations, are placed in the arena.
-/

namespace LionOS.Heap

open Lib Relation

/-- An allocation that has not been given back: its pointer and its layout. -/
structure Alloc where
  ptr : Nat
  layout : Layout

/-- The header and the rounded-up payload of an allocation. -/
def Alloc.block (a : Alloc) : Block := a.layout.blockAt a.ptr

/-- The rounded-up payload of an allocation. -/
def Alloc.payload (a : Alloc) : Block := ⟨a.ptr, a.layout.rounded⟩

/-- A heap and the allocations its callers hold. -/
structure World where
  heap : KernelHeap
  live : List Alloc

/-- The heap right after `init`, over a memory of arbitrary contents. -/
def World.start (m : Mem) (base size : Nat) : World := ⟨KernelHeap.init m base size, []⟩

/-- One call on the heap, or writes of the callers into what they own. -/
inductive Step (w : World) : World → Prop
  | alloc {l : Layout} {p : Nat} {h : KernelHeap} (hc : w.heap.allocLayout l = some (p, h)) :
      Step w ⟨h, if p = 0 then w.live else ⟨p, l⟩ :: w.live⟩
  | dealloc {pre post : List Alloc} {a : Alloc} {h : KernelHeap} (hl : w.live = pre ++ a :: post)
      (hc : w.heap.deallocLayout a.ptr a.layout = some h) : Step w ⟨h, pre ++ post⟩
  | write {m : Mem} (hm : ∀ x, (∀ a ∈ w.live, ¬ a.payload.Holds x) → m x = w.heap.mem x) :
      Step w ⟨{ w.heap with mem := m }, w.live⟩

/-- The arenas `init` accepts: a non-null aligned base, a size of whole words with
room for a header, and an end that is still an address. -/
structure Arena (base size : Nat) : Prop where
  base_ne : base ≠ 0
  base_aligned : base % 8 = 0
  size_aligned : size % 8 = 0
  room : 16 ≤ size
  no_wrap : base + size < 2 ^ 64

/-- The invariant of every run: free and live blocks tile parts of the arena, and
memory holds the free list. -/
structure Inv (base size : Nat) (w : World) (free : List Block) : Prop where
  base_eq : w.heap.base = base
  size_eq : w.heap.size = size
  rep : Rep w.heap free
  placed : Placed base (base + size) (free ++ w.live.map Alloc.block)
  ptr_ge : ∀ a ∈ w.live, nodeSize ≤ a.ptr

variable {base size : Nat} {w w' : World} {free : List Block}

/-- The payload of a live allocation lies in its block, behind the header. -/
theorem Alloc.block_holds {a : Alloc} (hptr : nodeSize ≤ a.ptr) {x : Nat}
    (hx : a.payload.Holds x) : a.block.Holds x := by
  simp only [Alloc.payload, Alloc.block, Layout.blockAt, Layout.need, Block.Holds, Block.stop]
    at hx ⊢
  omega

/-- A single free block covers a freshly initialised arena. -/
theorem Inv.start (m : Mem) (ha : Arena base size) :
    Inv base size (World.start m base size) [⟨base, size⟩] where
  base_eq := rfl
  size_eq := rfl
  rep := by
    have hsize : size < 2 ^ 64 := by have := ha.no_wrap; omega
    refine ⟨⟨rfl, ?_⟩, List.forall_mem_singleton.mpr ?_⟩
    · exact KernelHeap.next_writeNode (Nat.two_pow_pos 64)
    · exact KernelHeap.sizeAt_writeNode hsize
  placed := by
    refine ⟨?_, ?_, ?_, by simp [World.start]⟩ <;>
      simp [World.start, Block.stop, ha.base_aligned, ha.size_aligned, ha.room]
  ptr_ge := by simp [World.start]

namespace Inv

/-- The free list is placed on its own. -/
theorem placed_free (hi : Inv base size w free) : Placed base (base + size) free :=
  hi.placed.sublist (List.sublist_append_left ..)

/-- Bytes of live payloads belong to no free block. -/
theorem not_free_of_payload (hi : Inv base size w free) {a : Alloc} (ha : a ∈ w.live) {x : Nat}
    (hx : a.payload.Holds x) : ∀ b ∈ free, ¬ b.Holds x := by
  intro b hb hbx
  have hap := (List.pairwise_append.mp hi.placed.apart).2.2 b hb a.block (List.mem_map_of_mem ha)
  have hax := Alloc.block_holds (hi.ptr_ge a ha) hx
  simp only [Block.Apart, Block.Holds] at hap hbx hax
  omega

/-- What an allocation does: it takes the first adequate block in list order and pushes
the remainder, if that has room for a header, or it fails and changes nothing. Live
payloads stay as they were. -/
theorem alloc_cases (ha : Arena base size) (hi : Inv base size w free) (l : Layout) :
    (l.align ≤ alignLimit ∧ ∃ pre b post h, free = pre ++ b :: post ∧
      (∀ c ∈ pre, c.size < l.need) ∧ l.need ≤ b.size ∧
      w.heap.allocLayout l = some (b.addr + nodeSize, h) ∧
      Inv base size ⟨h, ⟨b.addr + nodeSize, l⟩ :: w.live⟩ (tailOf b l.need ++ (pre ++ post)) ∧
      ∀ a ∈ w.live, ∀ x, a.payload.Holds x → h.mem x = w.heap.mem x) ∨
    ((alignLimit < l.align ∨ ∀ c ∈ free, c.size < l.need) ∧
      w.heap.allocLayout l = some (0, w.heap)) := by
  have hb := hi.base_eq
  have hs := hi.size_eq
  have h0 := ha.base_ne
  have hw := ha.no_wrap
  rcases allocLayout_spec l (by omega) (by rw [hb, hs]; exact hw) hi.rep
    (by rw [hb, hs]; exact hi.placed_free) with
    ⟨hal, pre, b, post, h, hfree, hpre, hfit, hc, hr, -, hf⟩ | hfail
  · refine Or.inl ⟨hal, pre, b, post, h, hfree, hpre, hfit, hc, ?_, fun a ha x hx =>
      hf.mem x (hi.not_free_of_payload ha hx)⟩
    subst hfree
    have hperm : (pre ++ b :: post ++ w.live.map Alloc.block).Perm
        (b :: (pre ++ post ++ w.live.map Alloc.block)) := by simp
    have hpl := hi.placed.perm hperm
    have hblock : Alloc.block ⟨b.addr + nodeSize, l⟩ = ⟨b.addr, l.need⟩ := by
      simp [Alloc.block, Layout.blockAt]
    refine ⟨hf.base.trans hb, hf.size.trans hs, hr, ?_, List.forall_mem_cons.mpr
      ⟨by simp, hi.ptr_ge⟩⟩
    simp only [List.map_cons, hblock]
    by_cases ht : nodeSize ≤ b.size - l.need
    · rw [tailOf, if_pos ht]
      have hsplit := hpl.split l.need_aligned l.need_ge (by simp only [nodeSize] at ht; omega)
      refine hsplit.perm ?_
      have h1 : (⟨b.addr + l.need, b.size - l.need⟩ :: (pre ++ post) ++ ⟨b.addr, l.need⟩ ::
          w.live.map Alloc.block).Perm (⟨b.addr, l.need⟩ ::
            (⟨b.addr + l.need, b.size - l.need⟩ :: (pre ++ post) ++ w.live.map Alloc.block)) :=
        List.perm_middle
      simpa using h1.symm
    · rw [tailOf, if_neg ht]
      have hal := hpl.aligned b (List.mem_cons_self ..)
      have hshrink : Placed base (base + size)
          (⟨b.addr, l.need⟩ :: (pre ++ post ++ w.live.map Alloc.block)) :=
        hpl.shrink le_rfl (by simp only [Block.stop]; omega) ⟨hal.1, l.need_aligned⟩ l.need_ge
      refine hshrink.perm ?_
      have h1 : (pre ++ post ++ ⟨b.addr, l.need⟩ :: w.live.map Alloc.block).Perm
          (⟨b.addr, l.need⟩ :: (pre ++ post ++ w.live.map Alloc.block)) := List.perm_middle
      simpa using h1.symm
  · exact Or.inr hfail

/-- Every allocation call returns, and what it returns keeps the invariant; it
leaves all live payloads as they were. -/
theorem alloc (ha : Arena base size) (hi : Inv base size w free) (l : Layout) :
    ∃ p h, w.heap.allocLayout l = some (p, h) ∧
      (∃ free', Inv base size ⟨h, if p = 0 then w.live else ⟨p, l⟩ :: w.live⟩ free') ∧
      ∀ a ∈ w.live, ∀ x, a.payload.Holds x → h.mem x = w.heap.mem x := by
  rcases hi.alloc_cases ha l with
    ⟨-, pre, b, post, h, -, -, -, hc, hinv, hmem⟩ | ⟨-, hc⟩
  · have hne : b.addr + nodeSize ≠ 0 := by simp [nodeSize]
    exact ⟨_, h, hc, ⟨_, by rw [if_neg hne]; exact hinv⟩, hmem⟩
  · exact ⟨0, w.heap, hc, ⟨free, by simpa using hi⟩, fun _ _ _ _ => rfl⟩

/-- What a valid deallocation does: the block goes back in front of the first free block
above it, merged with its neighbours there. The payloads that stay live stay as they
were. -/
theorem dealloc_cases (ha : Arena base size) (hi : Inv base size w free) {pre post : List Alloc}
    {a : Alloc} (hl : w.live = pre ++ a :: post) :
    ∃ fpre fpost h, free = fpre ++ fpost ∧ (∀ c ∈ fpre, c.addr ≤ a.block.addr) ∧
      (∀ c ∈ fpost.head?, a.block.addr < c.addr) ∧
      w.heap.deallocLayout a.ptr a.layout = some h ∧
      Inv base size ⟨h, pre ++ post⟩ (released fpre a.block fpost) ∧
      ∀ c ∈ pre ++ post, ∀ x, c.payload.Holds x → h.mem x = w.heap.mem x := by
  have hb := hi.base_eq
  have hs := hi.size_eq
  have h0 := ha.base_ne
  have hw := ha.no_wrap
  have hperm : (free ++ w.live.map Alloc.block).Perm
      (a.block :: free ++ (pre ++ post).map Alloc.block) := by
    have h1 : (free ++ pre.map Alloc.block ++ a.block :: post.map Alloc.block).Perm
        (a.block :: (free ++ pre.map Alloc.block ++ post.map Alloc.block)) := List.perm_middle
    simpa [hl] using h1
  have hpl := hi.placed.perm hperm
  have hsub : ∀ c ∈ pre ++ post, c ∈ w.live := by
    intro c hc
    rw [hl]
    simp only [List.mem_append, List.mem_cons] at hc ⊢
    tauto
  obtain ⟨fpre, fpost, h, hfree, hlo, hhi, hc, hr, -, hf⟩ :=
    deallocLayout_spec a.layout a.ptr (by omega) (by rw [hb, hs]; exact hw) hi.rep
      (by rw [hb, hs]; exact hpl.sublist (List.sublist_append_left ..))
  subst hfree
  refine ⟨fpre, fpost, h, rfl, hlo, hhi, hc, ⟨hf.base.trans hb, hf.size.trans hs, hr,
    hpl.released, fun c hc => hi.ptr_ge c (hsub c hc)⟩, fun c hc x hx => hf.mem x ?_⟩
  refine List.forall_mem_cons.mpr ⟨?_, hi.not_free_of_payload (hsub c hc) hx⟩
  intro hax
  have hap := (List.pairwise_cons.mp hpl.apart).1 c.block
    (List.mem_append_right _ (List.mem_map_of_mem hc))
  have hcx := Alloc.block_holds (hi.ptr_ge c (hsub c hc)) hx
  simp only [Alloc.block, Block.Apart, Block.Holds] at hap hax hcx
  omega

/-- Every valid deallocation returns and keeps the invariant; it leaves the payloads
that stay live as they were. -/
theorem dealloc (ha : Arena base size) (hi : Inv base size w free) {pre post : List Alloc}
    {a : Alloc} (hl : w.live = pre ++ a :: post) :
    ∃ h, w.heap.deallocLayout a.ptr a.layout = some h ∧
      (∃ free', Inv base size ⟨h, pre ++ post⟩ free') ∧
      ∀ c ∈ pre ++ post, ∀ x, c.payload.Holds x → h.mem x = w.heap.mem x := by
  obtain ⟨fpre, fpost, h, -, -, -, hc, hinv, hmem⟩ := hi.dealloc_cases ha hl
  exact ⟨h, hc, ⟨_, hinv⟩, hmem⟩

/-- Writes of the owners into their payloads keep the invariant. -/
theorem write (hi : Inv base size w free) {m : Mem}
    (hm : ∀ x, (∀ a ∈ w.live, ¬ a.payload.Holds x) → m x = w.heap.mem x) :
    Inv base size ⟨{ w.heap with mem := m }, w.live⟩ free := by
  have hsame : ∀ b ∈ free, ∀ x, b.Holds x → m x = w.heap.mem x := by
    intro b hb x hx
    exact hm x fun a ha hax => hi.not_free_of_payload ha hax b hb hx
  have hword : ∀ b ∈ free, ∀ i, i ≤ 8 → read64 m (b.addr + i) = read64 w.heap.mem (b.addr + i) := by
    intro b hb i hi8
    have hroom := hi.placed_free.room b hb
    exact read64_congr fun x hx hx' => hsame b hb x ⟨by omega, by simp only [Block.stop]; omega⟩
  refine ⟨hi.base_eq, hi.size_eq, ?_, hi.placed, hi.ptr_ge⟩
  exact Rep.congr hi.rep rfl (fun b hb => hword b hb 0 (by omega)) fun b hb => hword b hb 8 le_rfl

/-- One step keeps the invariant. -/
theorem step (ha : Arena base size) (hi : Inv base size w free) (hstep : Step w w') :
    ∃ free', Inv base size w' free' := by
  cases hstep with
  | alloc hc =>
    obtain ⟨p, h, hc', hinv, -⟩ := hi.alloc ha _
    obtain ⟨rfl, rfl⟩ := Prod.mk.inj (Option.some.inj (hc.symm.trans hc'))
    exact hinv
  | dealloc hl hc =>
    obtain ⟨h, hc', hinv, -⟩ := hi.dealloc ha hl
    obtain rfl := Option.some.inj (hc.symm.trans hc')
    exact hinv
  | write hm => exact ⟨free, hi.write hm⟩

end Inv

/-- The invariant holds in every state of every run. -/
theorem Inv.of_run {m : Mem} (ha : Arena base size)
    (hrun : ReflTransGen Step (World.start m base size) w) : ∃ free, Inv base size w free := by
  induction hrun with
  | refl => exact ⟨_, Inv.start m ha⟩
  | tail _ hstep ih =>
    obtain ⟨free, hi⟩ := ih
    exact hi.step ha hstep

/-- What the allocator owes its callers in one state of a run. -/
structure Separation (base size : Nat) (w : World) : Prop where
  /-- The free list is null-terminated and acyclic; free and live blocks lie in the
  arena, aligned and of whole words, and are pairwise disjoint. -/
  blocks : ∃ free : List Block,
    Seg w.heap.next w.heap.head (free.map Block.addr) 0 ∧ 0 ∉ free.map Block.addr ∧
    (free.map Block.addr).Nodup ∧ (∀ b ∈ free, w.heap.sizeAt b.addr = b.size ∧ 16 ≤ b.size) ∧
    (∀ b ∈ free ++ w.live.map Alloc.block, base ≤ b.addr ∧ b.stop ≤ base + size ∧
      b.addr % 8 = 0 ∧ b.size % 8 = 0) ∧
    (free ++ w.live.map Alloc.block).Pairwise Block.Apart
  /-- No two live payloads overlap. -/
  payloads : (w.live.map Alloc.payload).Pairwise Block.Apart
  /-- Every allocation returns, and writes no byte of a live payload. -/
  alloc : ∀ l, ∃ p h, w.heap.allocLayout l = some (p, h) ∧
    ∀ a ∈ w.live, ∀ x, a.payload.Holds x → h.mem x = w.heap.mem x
  /-- Every valid deallocation returns, and writes no byte of the other live payloads. -/
  dealloc : ∀ pre a post, w.live = pre ++ a :: post →
    ∃ h, w.heap.deallocLayout a.ptr a.layout = some h ∧
      ∀ c ∈ pre ++ post, ∀ x, c.payload.Holds x → h.mem x = w.heap.mem x

/-- Live payloads are disjoint because their blocks are. -/
theorem Inv.payloads (hi : Inv base size w free) :
    (w.live.map Alloc.payload).Pairwise Block.Apart := by
  have hap := (List.pairwise_append.mp hi.placed.apart).2.1
  rw [List.pairwise_map] at hap ⊢
  refine (List.Pairwise.and_mem.mp hap).imp ?_
  rintro a c ⟨ha, hc, hac⟩
  have hpa := hi.ptr_ge a ha
  have hpc := hi.ptr_ge c hc
  simp only [Alloc.block, Alloc.payload, Layout.blockAt, Layout.need, Block.Apart, Block.stop]
    at hac ⊢
  omega

/-- In every state of every run the free list is acyclic and null-terminated, free
and live blocks are disjoint aligned parts of the arena, and neither call touches
a live payload. -/
theorem separation_of_run {m : Mem} (ha : Arena base size)
    (hrun : ReflTransGen Step (World.start m base size) w) : Separation base size w := by
  obtain ⟨free, hi⟩ := Inv.of_run ha hrun
  have hnull : 0 ∉ free.map Block.addr := by
    intro h0
    obtain ⟨b, hb, hb0⟩ := List.mem_map.mp h0
    have hlo := (hi.placed_free.inside b hb).1
    have := ha.base_ne
    omega
  refine ⟨⟨free, hi.rep.chain, hnull, hi.rep.chain.nodup hnull, ?_, ?_, hi.placed.apart⟩,
    hi.payloads, ?_, ?_⟩
  · exact fun b hb => ⟨hi.rep.sizes b hb, hi.placed_free.room b hb⟩
  · intro b hb
    exact ⟨(hi.placed.inside b hb).1, (hi.placed.inside b hb).2, hi.placed.aligned b hb⟩
  · intro l
    obtain ⟨p, h, hc, -, hmem⟩ := hi.alloc ha l
    exact ⟨p, h, hc, hmem⟩
  · intro pre a post hl
    obtain ⟨h, hc, -, hmem⟩ := hi.dealloc ha hl
    exact ⟨h, hc, hmem⟩

/-- A request for `n` bytes at the natural alignment. -/
def wordLayout (n : Nat) (hn : n + 8 ≤ 2 ^ 63) : Layout where
  size := n
  align := 8
  align_pow := ⟨3, rfl⟩
  size_le := hn

/-- The 176-byte arena of the coalescing test after one allocation of 64 bytes, and
after that block has been put back. -/
theorem separation_of_run_coalescing :
    ∃ w w' : World, w.live.length = 1 ∧ Separation 4096 176 w ∧
      w'.live.length = 0 ∧ Separation 4096 176 w' := by
  have ha : Arena 4096 176 := by constructor <;> decide
  let l := wordLayout 64 (by decide)
  let w₀ := World.start (fun _ => 0) 4096 176
  obtain ⟨p, h, hc, -⟩ := (separation_of_run ha (ReflTransGen.refl (a := w₀))).alloc l
  have hp : p = 4112 := by
    have hfst : (w₀.heap.allocLayout l).map Prod.fst = some 4112 := by decide +kernel
    simpa [hc] using hfst
  subst hp
  have h₁ : ReflTransGen Step w₀ ⟨h, [⟨4112, l⟩]⟩ := ReflTransGen.single (Step.alloc hc)
  have hs₁ := separation_of_run ha h₁
  obtain ⟨h', hc', -⟩ := hs₁.dealloc [] ⟨4112, l⟩ [] rfl
  have hl : [(⟨4112, l⟩ : Alloc)] = [] ++ ⟨4112, l⟩ :: [] := rfl
  have h₂ : ReflTransGen Step w₀ ⟨h', [] ++ []⟩ := h₁.tail (Step.dealloc hl hc')
  exact ⟨_, _, rfl, hs₁, rfl, separation_of_run ha h₂⟩

end LionOS.Heap
