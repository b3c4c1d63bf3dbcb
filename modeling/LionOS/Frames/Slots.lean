import LionOS.Frames.Refinement
import Mathlib.Data.Finset.Card

/-!
# Freeing with a full run list

`deallocate` looks for a slot before it merges, and drops the frame when all slots are in
use: by runs that are adjacent to the frame, and by runs that `allocate` has emptied, as
much as by others. A dropped frame stays counted as allocated and is in nobody's hands.
-/

namespace LionOS.Frames

open Lib Relation

/-- One call, also of `deallocate` with a full run list. `out` are the frames that are
handed out and have not been given back. -/
inductive CallStep (w : World) : World → Prop
  | exhausted (hc : w.alloc.allocate = none) : CallStep w w
  | allocate {f : Nat} {a : FrameAllocator} (hc : w.alloc.allocate = some (f, a)) :
      CallStep w ⟨a, f :: w.out⟩
  | deallocate (s : KeySort FrameRun.start) {pre post : List Nat} {f : Nat}
      (ho : w.out = pre ++ f :: post) : CallStep w ⟨w.alloc.deallocate s f, pre ++ post⟩

/-- The frames that consecutive calls of `allocate` return. -/
inductive Allocates : FrameAllocator → List Nat → FrameAllocator → Prop
  | none (a : FrameAllocator) : Allocates a [] a
  | some {a a' a'' : FrameAllocator} {f : Nat} {fs : List Nat} (hc : a.allocate = some (f, a'))
      (h : Allocates a' fs a'') : Allocates a (f :: fs) a''

/-- The number of maximal runs of consecutive frames in a set: a run starts at every frame
whose predecessor is not in the set. -/
def maximalRuns (s : Finset Nat) : Nat := (s.filter fun x => x = 0 ∨ x - 1 ∉ s).card

/-- A full run list drops the frame. -/
theorem deallocate_of_full {a : FrameAllocator} (h : ¬ a.runCount < maxRuns)
    (s : KeySort FrameRun.start) (f : Nat) : a.deallocate s f = a :=
  dif_neg h

/-- One call keeps what is out counted as allocated. A dropped frame stays counted, too. -/
private theorem out_le_allocated_step {w w' : World} (h : w.out.length ≤ w.alloc.allocated)
    (hstep : CallStep w w') : w'.out.length ≤ w'.alloc.allocated := by
  cases hstep with
  | exhausted hc => exact h
  | allocate hc =>
    rcases w.alloc.allocate_spec with ⟨hnone, -⟩ | ⟨f', a', hsome, -, -, hallocated, -⟩
    · rw [hc] at hnone
      cases hnone
    · obtain ⟨rfl, rfl⟩ := Prod.mk.inj (Option.some.inj (hc.symm.trans hsome))
      rw [hallocated, List.length_cons]
      omega
  | @deallocate s pre post f ho =>
    have hlen := congrArg List.length ho
    rw [List.length_append, List.length_cons] at hlen
    rw [List.length_append]
    by_cases hm : w.alloc.runCount < maxRuns
    · rw [(w.alloc.deallocate_spec s f hm).2.2]
      omega
    · rw [deallocate_of_full hm]
      exact (by omega : pre.length + post.length ≤ w.alloc.allocated)

theorem out_le_allocated {w w' : World} (h : w.out.length ≤ w.alloc.allocated)
    (hrun : ReflTransGen CallStep w w') : w'.out.length ≤ w'.alloc.allocated := by
  induction hrun with
  | refl => exact h
  | tail _ hstep ih => exact out_le_allocated_step ih hstep

/-- Allocating often enough returns every free frame. -/
theorem allocates_freeList (a : FrameAllocator) : ∃ a', Allocates a (freeList a.active) a' := by
  generalize hl : freeList a.active = l
  induction l generalizing a with
  | nil => exact ⟨a, .none a⟩
  | cons f l ih =>
    rcases a.allocate_spec with ⟨-, hnil⟩ | ⟨f', a', hc, hcons, -⟩
    · rw [hl] at hnil
      cases hnil
    · obtain ⟨rfl, rfl⟩ := List.cons.inj (hl.symm.trans hcons)
      obtain ⟨a'', hrest⟩ := ih a' rfl
      exact ⟨a'', .some hc hrest⟩

/-- **Freeing with a slot left loses nothing.** In every state that calls of
`allocate` and `deallocate` lead to, after `init` or from any allocator of which nothing is
out, and for every frame that is handed out: while a slot of the run list is left, giving the
frame back makes it free, so that a sequence of allocations returns it, and counts one frame
less as allocated; with all slots in use it changes nothing. -/
theorem deallocate_frees_with_slot {a : FrameAllocator} {w : World}
    (hrun : ReflTransGen CallStep ⟨a, []⟩ w) {f : Nat} (hf : f ∈ w.out)
    (s : KeySort FrameRun.start) :
    (w.alloc.runCount < maxRuns →
      (freeList (w.alloc.deallocate s f).active).toFinset = insert f w.free ∧
        (∃ fs b, Allocates (w.alloc.deallocate s f) fs b ∧ f ∈ fs) ∧
        (w.alloc.deallocate s f).allocatedFrames + 1 = w.alloc.allocatedFrames) ∧
      (w.alloc.runCount = maxRuns → w.alloc.deallocate s f = w.alloc) := by
  have hcounted := out_le_allocated (w := ⟨a, []⟩) (Nat.zero_le _) hrun
  refine ⟨fun hm => ?_, fun hm => deallocate_of_full (by omega) s f⟩
  have hperm := freeList_deallocate_perm s f hm
  have hmem : f ∈ freeList (w.alloc.deallocate s f).active := by
    rw [hperm.mem_iff]
    simp
  have hpos : 0 < w.alloc.allocated := (List.length_pos_of_mem hf).trans_le hcounted
  obtain ⟨b, hb⟩ := allocates_freeList (w.alloc.deallocate s f)
  refine ⟨?_, ⟨_, b, hb, hmem⟩, ?_⟩
  · ext x
    rw [List.mem_toFinset, hperm.mem_iff, Finset.mem_insert, World.free, List.mem_toFinset,
      List.mem_append, List.mem_singleton, or_comm]
  · rw [FrameAllocator.allocatedFrames, (w.alloc.deallocate_spec s f hm).2.2,
      FrameAllocator.allocatedFrames]
    omega

/-- Two frames are taken from one region of four and the first is given back. -/
theorem deallocate_frees_with_slot_reuse :
    ∃ a' w, FrameAllocator.empty.init (.insertion _) [(0x1000, 0x5000)] 0 = some (.ok a') ∧
      ReflTransGen CallStep ⟨a', []⟩ w ∧ w.out = [2, 1] ∧
      (freeList (w.alloc.deallocate (.insertion _) 1).active).toFinset = insert 1 w.free ∧
      (w.alloc.deallocate (.insertion _) 1).allocatedFrames + 1 = w.alloc.allocatedFrames := by
  let a₀ : FrameAllocator := FrameAllocator.empty.install [⟨1, 4⟩] (by decide)
  let a₂ : FrameAllocator := (a₀.takeFrom 0).takeFrom 0
  have h : FrameAllocator.empty.init (.insertion _) [(0x1000, 0x5000)] 0 = some (.ok a₀) := rfl
  have h₁ : CallStep ⟨a₀, []⟩ ⟨a₀.takeFrom 0, [1]⟩ := .allocate rfl
  have h₂ : CallStep ⟨a₀.takeFrom 0, [1]⟩ ⟨a₂, [2, 1]⟩ := .allocate rfl
  have hrun : ReflTransGen CallStep ⟨a₀, []⟩ ⟨a₂, [2, 1]⟩ := (ReflTransGen.single h₁).tail h₂
  have hfrees := (deallocate_frees_with_slot hrun (f := 1) (by simp) (.insertion _)).1
    (by decide)
  exact ⟨a₀, _, h, hrun, rfl, hfrees.1, hfrees.2.2⟩

/-- Sixty-four regions of one frame each, with a frame between two of them. -/
def spacedRegions : List (Nat × Nat) :=
  (List.range 64).map fun i => (4096 * (2 * i + 1), 4096 * (2 * i + 2))

private theorem spacedRegions_disjoint : spacedRegions.Pairwise Disjoint := by
  rw [spacedRegions, List.pairwise_map]
  refine List.pairwise_lt_range.imp fun {i j} hij x hx => ?_
  dsimp only at hx
  omega

/-- The first frame of the first of them, taken and given back: it would be a run of its own
again, one of sixty-four, and it is lost. -/
theorem full_list_drops_frame :
    ∃ a' w, FrameAllocator.empty.init (.insertion _) spacedRegions 0 = some (.ok a') ∧
      spacedRegions.Pairwise Disjoint ∧ ReflTransGen CallStep ⟨a', []⟩ w ∧ w.out = [1] ∧
      maximalRuns (insert 1 w.free) ≤ maxRuns ∧
      1 ∉ freeList (w.alloc.deallocate (.insertion _) 1).active ∧
      (w.alloc.deallocate (.insertion _) 1).allocatedFrames = w.alloc.allocatedFrames := by
  have hinit : (FrameAllocator.empty.init (.insertion _) spacedRegions 0).map (fun r =>
      r.toOption.map fun a => (freeList a.active, a.runCount)) =
        some (some ((List.range 64).map fun i => 2 * i + 1, 64)) := by
    decide
  cases hr : FrameAllocator.empty.init (.insertion _) spacedRegions 0 with
  | none => simp [hr] at hinit
  | some r =>
    cases r with
    | error e => simp [hr, Except.toOption] at hinit
    | ok a' =>
      simp only [hr, Except.toOption, Option.map_some, Option.some.injEq, Prod.mk.injEq] at hinit
      obtain ⟨hfree, hcount⟩ := hinit
      rcases a'.allocate_spec with ⟨-, hnil⟩ | ⟨f, a₁, hc, hcons, -, -, hsame⟩
      · rw [hfree] at hnil
        exact absurd hnil (by decide)
      rw [hfree, List.range_succ_eq_map, List.map_cons] at hcons
      obtain ⟨rfl, hrest⟩ := List.cons.inj hcons
      have hfull : ¬ a₁.runCount < maxRuns := by
        rw [hsame, hcount]
        decide
      refine ⟨a', ⟨a₁, [1]⟩, rfl, spacedRegions_disjoint, .single (.allocate hc), rfl, ?_, ?_, ?_⟩
      · rw [World.free, ← hrest]
        decide +kernel
      · rw [deallocate_of_full hfull, ← hrest]
        decide +kernel
      · rw [deallocate_of_full hfull]

end LionOS.Frames
