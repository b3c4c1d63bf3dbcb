import LionOS.Frames.FreeFrames
import Mathlib.Data.Finset.Basic
import Mathlib.Data.List.Sort
import Mathlib.Logic.Relation
import Mathlib.Order.Bounds.Basic
import Mathlib.Tactic.SplitIfs

/-!
# The frame allocator refines a finite set with extract-minimum

The abstract allocator is a finite set of free elements: allocation removes the
least one, deallocation puts one back. Every run of the frame allocator over
disjoint regions, with any sort at every call that sorts, is a run of the
abstract one on the set of its free frames.
-/

namespace LionOS.Frames

open Lib Relation

/-- What a caller sees of one call. -/
inductive Event (α : Type*) where
  | allocate (result : Option α)
  | deallocate (f : α)

/-- A finite set that hands out its least element. -/
inductive SetStep {α : Type*} [LinearOrder α] : Finset α → Event α → Finset α → Prop
  | exhausted : SetStep ∅ (.allocate none) ∅
  | take {s : Finset α} {f : α} (h : IsLeast (s : Set α) f) :
      SetStep s (.allocate (some f)) (s.erase f)
  | give {s : Finset α} {f : α} (h : f ∉ s) : SetStep s (.deallocate f) (insert f s)

/-- Taking the head of an increasing list takes the least element of its set. -/
theorem SetStep.of_cons {α : Type*} [LinearOrder α] {f : α} {l : List α}
    (h : (f :: l).Pairwise (· < ·)) :
    SetStep (f :: l).toFinset (.allocate (some f)) l.toFinset := by
  obtain ⟨hf, -⟩ := List.pairwise_cons.mp h
  have hnot : f ∉ l := fun hm => lt_irrefl f (hf f hm)
  have hleast : IsLeast ((f :: l).toFinset : Set α) f := by
    refine ⟨by simp, fun x hx => ?_⟩
    rcases List.mem_cons.mp (List.mem_toFinset.mp hx) with rfl | hx
    · exact le_rfl
    · exact (hf x hx).le
  have herase : (f :: l).toFinset.erase f = l.toFinset := by
    rw [List.toFinset_cons, Finset.erase_insert (by simpa using hnot)]
  exact herase ▸ SetStep.take hleast

/-! ## Specifications of the operations -/

/-- Empty runs list no frame. -/
theorem freeList_eq_nil {l : List FrameRun} (h : ∀ r ∈ l, r.count = 0) : freeList l = [] := by
  refine List.flatMap_eq_nil_iff.mpr fun r hr => ?_
  simp [FrameRun.frames, h r hr]

namespace FrameAllocator

/-- The search stops at the first non-empty run of its range. -/
theorem firstFree_eq_some {runs : List FrameRun} {left i j : Nat}
    (h : firstFree runs left i = some j) :
    i ≤ j ∧ j < i + left ∧ 0 < (runs.getD j .empty).count ∧
      ∀ k, i ≤ k → k < j → (runs.getD k .empty).count = 0 := by
  induction left generalizing i with
  | zero => simp [firstFree] at h
  | succ left ih =>
    unfold firstFree at h
    split at h
    next hc =>
      obtain rfl := Option.some.inj h
      exact ⟨le_rfl, by omega, hc, fun k hk hk' => by omega⟩
    next hc =>
      obtain ⟨h1, h2, h3, h4⟩ := ih h
      refine ⟨by omega, by omega, h3, fun k hk hk' => ?_⟩
      rcases Nat.eq_or_lt_of_le hk with rfl | hk
      · omega
      · exact h4 k hk hk'

/-- The search fails only when every run of its range is empty. -/
theorem firstFree_eq_none {runs : List FrameRun} {left i : Nat}
    (h : firstFree runs left i = none) :
    ∀ k, i ≤ k → k < i + left → (runs.getD k .empty).count = 0 := by
  induction left generalizing i with
  | zero => intro k hk hk'; omega
  | succ left ih =>
    unfold firstFree at h
    split at h
    · exact absurd h (by simp)
    next hc =>
      intro k hk hk'
      rcases Nat.eq_or_lt_of_le hk with rfl | hk
      · omega
      · exact ih h k hk (by omega)

/-- Counts of a prefix, slot by slot. -/
theorem counts_take {runs : List FrameRun} {n : Nat}
    (h : ∀ k, k < n → (runs.getD k .empty).count = 0) : ∀ r ∈ runs.take n, r.count = 0 := by
  intro r hr
  obtain ⟨k, hk, rfl⟩ := List.mem_iff_getElem.mp hr
  simp only [List.length_take] at hk
  have hc := h k (by omega)
  rw [List.getD_eq_getElem?_getD, List.getElem?_eq_getElem (by omega)] at hc
  simpa using hc

/-- Slot `j` of the array, singled out in the prefix of length `n`. -/
theorem take_split {runs : List FrameRun} {j n : Nat} (hj : j < n) (hn : n ≤ runs.length)
    (r : FrameRun) : (runs.set j r).take n =
      runs.take j ++ r :: (runs.drop (j + 1)).take (n - (j + 1)) := by
  have hlen : j < (runs.set j r).length := by simp only [List.length_set]; omega
  have hsplit : runs.set j r = runs.take j ++ r :: runs.drop (j + 1) :=
    List.set_eq_take_append_cons_drop.trans (if_pos (by omega))
  rw [hsplit, List.take_append, List.take_take]
  have h1 : min n j = j := by omega
  have h2 : n - (runs.take j).length = (n - (j + 1)) + 1 := by simp only [List.length_take]; omega
  rw [h1, h2, List.take_succ_cons]

/-- Specification of `allocate`: it fails exactly when no frame is free, and else
takes the first frame of the free list. -/
theorem allocate_spec (a : FrameAllocator) :
    (a.allocate = none ∧ freeList a.active = []) ∨
    ∃ f a', a.allocate = some (f, a') ∧ freeList a.active = f :: freeList a'.active ∧
      a'.total = a.total ∧ a'.allocated = a.allocated + 1 ∧ a'.runCount = a.runCount := by
  cases hff : firstFree a.runs a.runCount 0 with
  | none =>
    left
    refine ⟨by simp [allocate, hff], freeList_eq_nil (counts_take fun k hk => ?_)⟩
    exact firstFree_eq_none hff k (Nat.zero_le _) (by omega)
  | some j =>
    right
    obtain ⟨-, hj, hc, hz⟩ := firstFree_eq_some hff
    rw [Nat.zero_add] at hj
    have hle : a.runCount ≤ a.runs.length := by rw [a.runs_length]; exact a.runCount_le
    have hsame : a.runs.set j (a.runs.getD j .empty) = a.runs := by
      have hjl : j < a.runs.length := by omega
      rw [List.getD_eq_getElem?_getD, List.getElem?_eq_getElem hjl]
      simp
    have hpre : freeList (a.runs.take j) = [] :=
      freeList_eq_nil (counts_take fun k hk => hz k (Nat.zero_le _) hk)
    refine ⟨(a.runs.getD j .empty).start, a.takeFrom j, by simp only [allocate, hff], ?_, rfl, rfl,
      rfl⟩
    have hold : a.active = a.runs.take j ++ a.runs.getD j .empty ::
        (a.runs.drop (j + 1)).take (a.runCount - (j + 1)) := by
      have := take_split hj hle (a.runs.getD j .empty)
      rwa [hsame] at this
    have hnew : (a.takeFrom j).active = _ := take_split hj hle
      (⟨(a.runs.getD j .empty).start + 1, (a.runs.getD j .empty).count - 1⟩ : FrameRun)
    rw [hold, hnew]
    generalize a.runs.getD j .empty = r at hc
    cases r with
    | mk start count =>
      obtain ⟨c, rfl⟩ : ∃ c, count = c + 1 := ⟨count - 1, by simp only at hc; omega⟩
      simp only [freeList_append, freeList_cons, hpre, FrameRun.frames, List.nil_append,
        Nat.add_sub_cancel, List.range'_succ, List.cons_append]

/-- Specification of `deallocate` with a free slot left: the free frames are those of
the runs and the freed frame, in the order of the sort. -/
theorem deallocate_spec (a : FrameAllocator) (s : KeySort FrameRun.start) (f : Nat)
    (h : a.runCount < maxRuns) :
    freeList (a.deallocate s f).active = freeList (s.sort (a.active ++ [⟨f, 1⟩])) ∧
      (a.deallocate s f).total = a.total ∧ (a.deallocate s f).allocated = a.allocated - 1 := by
  have hlen : a.runCount < a.runs.length := by rw [a.runs_length]; exact h
  have hslots : (a.runs.set a.runCount ⟨f, 1⟩).take (a.runCount + 1) = a.active ++ [⟨f, 1⟩] := by
    rw [take_split (by omega) (by omega)]
    simp [active]
  have hdef : a.deallocate s f = _ := dif_pos h
  refine ⟨?_, by rw [hdef], by rw [hdef]⟩
  rw [hdef]
  simp only [active]
  rw [mergeInPlace_eq _ _ _ _ le_rfl (by rw [a.sortedRuns_length s f h]; omega)]
  rw [freeList_foldl_mergeInto]
  have hsort : (s.sort (a.active ++ [⟨f, 1⟩])).length = a.runCount + 1 := by
    rw [(s.perm _).length_eq]
    simp [active]
    omega
  simp only [sortedRuns, hslots, List.drop_zero, List.take_zero, freeList_nil, List.nil_append]
  rw [List.take_left' hsort]
  rfl

/-- The run a region contributes, if any. -/
def runOf (floor : Nat) (region : Nat × Nat) : Option FrameRun := (clip floor region).join

/-- Every frame of a region's run lies inside the region and above the floor. -/
theorem runOf_frames {floor : Nat} {region : Nat × Nat} {r : FrameRun} {f : Nat}
    (h : runOf floor region = some r) (hf : f ∈ r.frames) :
    max region.1 floor ≤ frameSize * f ∧ frameSize * (f + 1) ≤ region.2 := by
  have hc : clip floor region = some (some r) := Option.join_eq_some_iff.mp h
  simp only [clip] at hc
  split at hc
  · exact absurd hc (by simp)
  split at hc
  · exact absurd hc (by simp)
  split at hc
  · exact absurd hc (by simp)
  split at hc
  · exact absurd hc (by simp)
  obtain rfl := Option.some.inj (Option.some.inj hc)
  simp only [FrameRun.mem_frames, frameSize] at hf ⊢
  omega

/-- Rounding a region up to frames overflows when it reaches above the floor and starts, or
the floor lies, in the last page of the address space. -/
theorem clip_eq_none_iff {floor : Nat} {region : Nat × Nat} :
    clip floor region = none ↔ floor < region.2 ∧ max region.1 floor < region.2 ∧
      2 ^ 64 ≤ max region.1 floor + frameSize := by
  simp only [clip]
  split
  next h => exact iff_of_false (by simp) (by omega)
  next h =>
    split
    next h' => exact iff_of_false (by simp) (by omega)
    next h' =>
      split
      next hov => exact iff_of_true rfl ⟨by omega, by omega, hov⟩
      next hov =>
        split
        · exact iff_of_false (by simp) (by omega)
        · exact iff_of_false (by simp) (by omega)

/-- Without overflow, the frames of a region's run are the whole frames of the region
above the floor. -/
theorem mem_runOf_iff {floor f : Nat} {region : Nat × Nat} (h : clip floor region ≠ none) :
    (∃ r, runOf floor region = some r ∧ f ∈ r.frames) ↔
      max region.1 floor ≤ frameSize * f ∧ frameSize * (f + 1) ≤ region.2 := by
  constructor
  · rintro ⟨r, hr, hf⟩
    exact runOf_frames hr hf
  · intro hf
    rw [ne_eq, clip_eq_none_iff] at h
    have habove : ¬ region.2 ≤ floor := by simp only [frameSize] at hf; omega
    have hbelow : ¬ region.2 ≤ max region.1 floor := by simp only [frameSize] at hf; omega
    have hfits : ¬ 2 ^ 64 ≤ max region.1 floor + frameSize := by omega
    have hwhole : ¬ region.2 / frameSize ≤ (max region.1 floor + frameSize - 1) / frameSize := by
      simp only [frameSize] at hf ⊢
      omega
    have hsome : clip floor region = some (some
        ⟨(max region.1 floor + frameSize - 1) / frameSize,
          region.2 / frameSize - (max region.1 floor + frameSize - 1) / frameSize⟩) := by
      simp only [clip, habove, hbelow, hfits, hwhole, if_false]
    refine ⟨_, Option.join_eq_some_iff.mpr hsome, ?_⟩
    simp only [FrameRun.mem_frames, frameSize] at hf ⊢
    omega

/-- Collecting overflows if and only if some region does, as long as the array holds them
all; otherwise it goes through. -/
theorem collect_of_length_le {floor : Nat} {regions : List (Nat × Nat)} {acc : List FrameRun}
    (hlen : acc.length + regions.length ≤ maxRuns) :
    (∃ r ∈ regions, clip floor r = none) ∧ collect floor regions acc = none ∨
      (∀ r ∈ regions, clip floor r ≠ none) ∧
        ∃ out, collect floor regions acc = some (.ok out) ∧
          out.length ≤ acc.length + regions.length := by
  induction regions generalizing acc with
  | nil => exact Or.inr ⟨by simp, acc, rfl, by simp⟩
  | cons region regions ih =>
    simp only [List.length_cons] at hlen
    cases hc : clip floor region with
    | none => exact Or.inl ⟨⟨region, List.mem_cons_self .., hc⟩, by rw [collect, hc]⟩
    | some o =>
      have hne : clip floor region ≠ none := by simp [hc]
      obtain ⟨acc', hacc', hturn⟩ : ∃ acc' : List FrameRun, acc'.length ≤ acc.length + 1 ∧
          collect floor (region :: regions) acc = collect floor regions acc' := by
        cases o with
        | none => exact ⟨acc, by omega, by rw [collect, hc]⟩
        | some run =>
          refine ⟨acc ++ [run], by simp, ?_⟩
          rw [collect, hc]
          exact if_neg (by omega)
      have hlen' : acc'.length + regions.length ≤ maxRuns := by omega
      rw [hturn, List.length_cons]
      rcases ih hlen' with ⟨⟨r, hr, hn⟩, hcol⟩ | ⟨hall, out, hcol, hout⟩
      · exact Or.inl ⟨⟨r, List.mem_cons_of_mem _ hr, hn⟩, hcol⟩
      · exact Or.inr ⟨List.forall_mem_cons.mpr ⟨hne, hall⟩, out, hcol, by omega⟩

/-- Merging goes through when the array holds all runs. -/
private theorem mergeCollected_of_length_le {l merged : List FrameRun}
    (hlen : merged.length + l.length ≤ maxRuns) : ∃ out, mergeCollected l merged = .ok out := by
  induction l generalizing merged with
  | nil => exact ⟨merged, rfl⟩
  | cons r l ih =>
    simp only [List.length_cons] at hlen
    unfold mergeCollected
    split
    next hadj =>
      apply ih
      rcases List.eq_nil_or_concat merged with rfl | ⟨merged, p, rfl⟩
      · simp at hadj
      · simp only [List.concat_eq_append, List.length_append, List.length_singleton] at hlen
        simp only [List.concat_eq_append, List.getLast?_concat, Option.any_some,
          decide_eq_true_eq] at hadj
        simp only [List.concat_eq_append, mergeInto, List.getLast?_concat, hadj, if_true,
          List.dropLast_concat, List.length_append, List.length_singleton]
        omega
    next =>
      rw [if_neg (by omega)]
      apply ih
      simp only [List.length_append, List.length_singleton]
      omega

/-- Over at most as many regions as the array holds, `init` overflows if and only if some
region does, and otherwise succeeds. -/
theorem init_of_length_le (a : FrameAllocator) (s : KeySort FrameRun.start)
    {regions : List (Nat × Nat)} (floor : Nat) (hlen : regions.length ≤ maxRuns) :
    (∃ r ∈ regions, clip floor r = none) ∧ a.init s regions floor = none ∨
      (∀ r ∈ regions, clip floor r ≠ none) ∧ ∃ a', a.init s regions floor = some (.ok a') := by
  have hzero : ([] : List FrameRun).length + regions.length ≤ maxRuns := by simpa using hlen
  rcases collect_of_length_le hzero with ⟨hov, hcol⟩ | ⟨hall, out, hcol, hout⟩
  · exact Or.inl ⟨hov, by simp only [init, hcol]⟩
  · refine Or.inr ⟨hall, ?_⟩
    have hsort : ([] : List FrameRun).length + (s.sort out).length ≤ maxRuns := by
      rw [(s.perm out).length_eq]
      simp only [List.length_nil] at hout ⊢
      omega
    obtain ⟨merged, hm⟩ := mergeCollected_of_length_le hsort
    unfold init
    simp only [hcol]
    split
    next e he => simp [hm] at he
    next merged' he => exact ⟨_, rfl⟩

/-- The collected runs are those of the regions, in order. -/
private theorem collect_eq {floor : Nat} {regions : List (Nat × Nat)} {acc out : List FrameRun}
    (h : collect floor regions acc = some (.ok out)) :
    out = acc ++ regions.filterMap (runOf floor) := by
  induction regions generalizing acc with
  | nil => simpa [collect, eq_comm] using h
  | cons region regions ih =>
    unfold collect at h
    cases hc : clip floor region with
    | none => simp [hc] at h
    | some o =>
      cases o with
      | none =>
        simp only [hc] at h
        simp [ih h, runOf, hc]
      | some run =>
        simp only [hc] at h
        split at h
        · simp at h
        · simp [ih h, runOf, hc]

/-- Specification of a successful `init`: the free frames are those of the regions'
runs, in the order of the sort, and none is allocated. -/
theorem init_spec {a a' : FrameAllocator} {s : KeySort FrameRun.start} {regions : List (Nat × Nat)}
    {floor : Nat} (h : a.init s regions floor = some (.ok a')) :
    freeList a'.active = freeList (s.sort (regions.filterMap (runOf floor))) ∧
      a'.total = (freeList a'.active).length ∧ a'.allocated = 0 := by
  unfold init at h
  split at h
  · simp at h
  · simp at h
  next collected hcol =>
    have hcoll := collect_eq hcol
    rw [List.nil_append] at hcoll
    split at h
    · simp at h
    next merged hm =>
      obtain rfl := Except.ok.inj (Option.some.inj h)
      have hact :
          (a.install merged (mergeCollected_length (Nat.zero_le _) hm)).active = merged := by
        simp [active, install]
      refine ⟨?_, ?_, rfl⟩
      · rw [hact, mergeCollected_eq hm, freeList_foldl_mergeInto, hcoll]
        simp
      · rw [hact, length_freeList]
        rfl

end FrameAllocator

/-! ## Runs -/

/-- The allocator and the frames its callers hold. -/
structure World where
  alloc : FrameAllocator
  out : List Nat

/-- One call: `allocate`, or `deallocate` of a frame that is handed out while a slot
of the array is left, with any sort. -/
inductive Step (w : World) : Event Nat → World → Prop
  | exhausted (hc : w.alloc.allocate = none) : Step w (.allocate none) w
  | allocate {f : Nat} {a : FrameAllocator} (hc : w.alloc.allocate = some (f, a)) :
      Step w (.allocate (some f)) ⟨a, f :: w.out⟩
  | deallocate (s : KeySort FrameRun.start) {pre post : List Nat} {f : Nat}
      (ho : w.out = pre ++ f :: post) (hm : w.alloc.runCount < maxRuns) :
      Step w (.deallocate f) ⟨w.alloc.deallocate s f, pre ++ post⟩

/-- One call, whatever its outcome. -/
def Calls (w w' : World) : Prop := ∃ e, Step w e w'

/-- The abstract state: the set of free frames. -/
def World.free (w : World) : Finset Nat := (freeList w.alloc.active).toFinset

/-- The invariant of every run. -/
structure Inv (w : World) : Prop where
  /-- Free frames are listed in increasing order, so in particular once. -/
  increasing : (freeList w.alloc.active).Pairwise (· < ·)
  /-- No frame is handed out twice. -/
  out_nodup : w.out.Nodup
  /-- No frame is both free and handed out. -/
  apart : ∀ f ∈ w.out, f ∉ freeList w.alloc.active
  allocated_eq : w.alloc.allocated = w.out.length
  total_eq : w.alloc.total = (freeList w.alloc.active).length + w.alloc.allocated

/-- The byte ranges of two regions share no byte. -/
def Disjoint (r q : Nat × Nat) : Prop := ∀ x, ¬ (r.1 ≤ x ∧ x < r.2 ∧ q.1 ≤ x ∧ x < q.2)

/-- Disjoint regions contribute disjoint frames. -/
private theorem nodup_freeList_regions {regions : List (Nat × Nat)} (floor : Nat)
    (hd : regions.Pairwise Disjoint) :
    (freeList (regions.filterMap (FrameAllocator.runOf floor))).Nodup := by
  refine List.nodup_flatMap.mpr ⟨fun r _ => List.nodup_range', ?_⟩
  refine List.pairwise_filterMap.mpr (hd.imp ?_)
  intro p q hpq r hr t ht f hf hf'
  have h1 := FrameAllocator.runOf_frames hr hf
  have h2 := FrameAllocator.runOf_frames ht hf'
  refine hpq (frameSize * f) ?_
  simp only [frameSize] at h1 h2 ⊢
  omega

/-- The invariant holds after a successful `init` over disjoint regions. -/
theorem Inv.init {a a' : FrameAllocator} {s : KeySort FrameRun.start} {regions : List (Nat × Nat)}
    {floor : Nat} (hd : regions.Pairwise Disjoint)
    (h : a.init s regions floor = some (.ok a')) : Inv ⟨a', []⟩ := by
  obtain ⟨hfree, htotal, halloc⟩ := FrameAllocator.init_spec h
  have hnodup : (freeList (s.sort (regions.filterMap (FrameAllocator.runOf floor)))).Nodup :=
    ((freeList_perm (s.perm _)).nodup_iff).mpr (nodup_freeList_regions floor hd)
  refine ⟨?_, List.nodup_nil, by simp, halloc, by simp [htotal, halloc]⟩
  rw [hfree]
  exact freeList_increasing (s.sorted _) hnodup

/-- An allocation takes the least free frame. -/
theorem Inv.allocate {w : World} {f : Nat} {a : FrameAllocator} (hi : Inv w)
    (hc : w.alloc.allocate = some (f, a)) :
    SetStep w.free (.allocate (some f)) (World.free ⟨a, f :: w.out⟩) ∧ Inv ⟨a, f :: w.out⟩ := by
  have hinc := hi.increasing
  have htot := hi.total_eq
  rcases w.alloc.allocate_spec with ⟨hn, -⟩ | ⟨f', a', hs, hcons, ht, ha, -⟩
  · simp [hc] at hn
  · obtain ⟨rfl, rfl⟩ := Prod.mk.inj (Option.some.inj (hc.symm.trans hs))
    rw [hcons] at hinc htot
    simp only [World.free, hcons]
    refine ⟨SetStep.of_cons hinc, (List.pairwise_cons.mp hinc).2, ?_, ?_, ?_, ?_⟩
    · refine List.nodup_cons.mpr ⟨fun hm => hi.apart f hm ?_, hi.out_nodup⟩
      rw [hcons]
      exact List.mem_cons_self ..
    · intro g hg
      rcases List.mem_cons.mp hg with rfl | hg
      · exact fun hm => lt_irrefl _ ((List.pairwise_cons.mp hinc).1 _ hm)
      · intro hm
        apply hi.apart g hg
        rw [hcons]
        exact List.mem_cons_of_mem _ hm
    · simp only [ha, hi.allocated_eq, List.length_cons]
    · simp only [ht, ha, List.length_cons] at htot ⊢
      omega

/-- Giving a frame back lists it once more. -/
theorem freeList_deallocate_perm {a : FrameAllocator} (s : KeySort FrameRun.start) (f : Nat)
    (hm : a.runCount < maxRuns) :
    (freeList (a.deallocate s f).active).Perm (freeList a.active ++ [f]) := by
  rw [(a.deallocate_spec s f hm).1]
  have hperm := freeList_perm (s.perm (a.active ++ [⟨f, 1⟩]))
  simpa [FrameRun.frames] using hperm

/-- A deallocation gives back exactly the frame. -/
theorem Inv.deallocate {w : World} (hi : Inv w) (s : KeySort FrameRun.start)
    {pre post : List Nat} {f : Nat} (ho : w.out = pre ++ f :: post)
    (hm : w.alloc.runCount < maxRuns) :
    SetStep w.free (.deallocate f) (World.free ⟨w.alloc.deallocate s f, pre ++ post⟩) ∧
      Inv ⟨w.alloc.deallocate s f, pre ++ post⟩ := by
  obtain ⟨hfree, ht, ha⟩ := w.alloc.deallocate_spec s f hm
  have hperm := freeList_deallocate_perm s f hm
  have hfo : f ∈ w.out := by simp [ho]
  have hnf := hi.apart f hfo
  have hnodup : (freeList (w.alloc.deallocate s f).active).Nodup := by
    refine hperm.nodup_iff.mpr (List.nodup_append.mpr
      ⟨hi.increasing.imp fun h => h.ne, by simp, ?_⟩)
    intro x hx y hy hxy
    rw [List.mem_singleton.mp hy] at hxy
    exact hnf (hxy ▸ hx)
  have hmem : ∀ x, x ∈ freeList (w.alloc.deallocate s f).active ↔
      x = f ∨ x ∈ freeList w.alloc.active := by
    intro x
    rw [hperm.mem_iff]
    simp [or_comm]
  have hout : (pre ++ post).Nodup ∧ f ∉ pre ++ post := by
    have hp : (pre ++ f :: post).Perm (f :: (pre ++ post)) := List.perm_middle
    have hn := hp.nodup_iff.mp (ho ▸ hi.out_nodup)
    exact ⟨(List.nodup_cons.mp hn).2, (List.nodup_cons.mp hn).1⟩
  refine ⟨?_, ?_, hout.1, ?_, ?_, ?_⟩
  · have hset : World.free ⟨w.alloc.deallocate s f, pre ++ post⟩ = insert f w.free := by
      ext x
      simp [World.free, hmem]
    rw [hset]
    exact SetStep.give (by simpa [World.free] using hnf)
  · rw [hfree] at hnodup ⊢
    exact freeList_increasing (s.sorted _) hnodup
  · intro g hg hgf
    rcases (hmem g).mp hgf with rfl | hgf
    · exact hout.2 hg
    · refine hi.apart g ?_ hgf
      rw [ho]
      simp only [List.mem_append, List.mem_cons] at hg ⊢
      tauto
  · simp only [ha, hi.allocated_eq, ho, List.length_append, List.length_cons]
    omega
  · have hall := hi.allocated_eq
    have htot := hi.total_eq
    have hlen := hperm.length_eq
    have hpos : 0 < w.out.length := List.length_pos_of_mem hfo
    simp only [List.length_append, List.length_singleton] at hlen
    simp only [ht, ha, hlen]
    omega

/-- One call keeps the invariant and is a step of the abstract allocator. -/
theorem Inv.step {w w' : World} {e : Event Nat} (hi : Inv w) (hstep : Step w e w') :
    SetStep w.free e w'.free ∧ Inv w' := by
  cases hstep with
  | exhausted hc =>
    rcases w.alloc.allocate_spec with ⟨-, hnil⟩ | ⟨f, a, hs, -⟩
    · refine ⟨?_, hi⟩
      simp only [World.free, hnil, List.toFinset_nil]
      exact SetStep.exhausted
    · simp [hc] at hs
  | allocate hc => exact hi.allocate hc
  | deallocate s ho hm => exact hi.deallocate s ho hm

/-- The invariant holds in every state of every run. -/
theorem Inv.of_run {w w' : World} (hi : Inv w) (hrun : ReflTransGen Calls w w') : Inv w' := by
  induction hrun with
  | refl => exact hi
  | tail _ hstep ih =>
    obtain ⟨e, he⟩ := hstep
    exact (ih.step he).2

/-- No frame is listed by two runs in use. -/
theorem Inv.runs_disjoint {w : World} (hi : Inv w) :
    w.alloc.active.Pairwise fun r q => r.frames.Disjoint q.frames := by
  have hn : (freeList w.alloc.active).Nodup := hi.increasing.imp fun h => h.ne
  exact (List.nodup_flatMap.mp hn).2

/-- Allocation fails exactly when no frame is free. -/
private theorem allocate_eq_none_iff (w : World) : w.alloc.allocate = none ↔ w.free = ∅ := by
  rcases w.alloc.allocate_spec with ⟨hn, hnil⟩ | ⟨f, a, hs, hcons, -⟩
  · simp [hn, World.free, hnil]
  · simp [hs, World.free, hcons]

/-- **Extract-minimum.** Over disjoint regions, in every state of every run each call is
a step of the abstract allocator on the set of free frames, allocation fails exactly
when that set is empty, no frame is in two runs or both free and handed out, and the
accounting adds up. -/
theorem refines_extract_min {a a' : FrameAllocator} {s : KeySort FrameRun.start}
    {regions : List (Nat × Nat)} {floor : Nat} (hd : regions.Pairwise Disjoint)
    (h : a.init s regions floor = some (.ok a'))
    {w : World} (hrun : ReflTransGen Calls ⟨a', []⟩ w) :
    (∀ e w', Step w e w' → SetStep w.free e w'.free) ∧
      (w.alloc.allocate = none ↔ w.free = ∅) ∧
      (w.alloc.active.Pairwise fun r q => r.frames.Disjoint q.frames) ∧
      (∀ f ∈ w.out, f ∉ w.free) ∧
      w.out.Nodup ∧
      w.alloc.totalFrames = w.alloc.freeFrames + w.alloc.allocatedFrames := by
  have hi : Inv w := (Inv.init hd h).of_run hrun
  refine ⟨fun e w' hstep => (hi.step hstep).1, allocate_eq_none_iff w, hi.runs_disjoint, ?_,
    hi.out_nodup, ?_⟩
  · intro f hf hmem
    exact hi.apart f hf (List.mem_toFinset.mp hmem)
  · have htotal := hi.total_eq
    rw [length_freeList] at htotal
    exact htotal

/-- A run over one region of four frames: two are taken, the first is given back and is
the next one handed out. -/
theorem refines_extract_min_reuse :
    ∃ a' w, FrameAllocator.empty.init (.insertion _) [(0x1000, 0x5000)] 0 = some (.ok a') ∧
      ReflTransGen Calls ⟨a', []⟩ w ∧ w.out = [2] ∧ w.alloc.active = [⟨1, 1⟩, ⟨3, 2⟩] ∧
      (∀ e w', Step w e w' → SetStep w.free e w'.free) ∧
      w.alloc.totalFrames = w.alloc.freeFrames + w.alloc.allocatedFrames := by
  let a₀ : FrameAllocator := FrameAllocator.empty.install [⟨1, 4⟩] (by decide)
  let a₂ : FrameAllocator := (a₀.takeFrom 0).takeFrom 0
  have h : FrameAllocator.empty.init (.insertion _) [(0x1000, 0x5000)] 0 = some (.ok a₀) := rfl
  have h₁ : Calls ⟨a₀, []⟩ ⟨a₀.takeFrom 0, [1]⟩ := ⟨_, Step.allocate rfl⟩
  have h₂ : Calls ⟨a₀.takeFrom 0, [1]⟩ ⟨a₂, [2, 1]⟩ := ⟨_, Step.allocate rfl⟩
  have h₃ : Calls ⟨a₂, [2, 1]⟩ ⟨a₂.deallocate (.insertion _) 1, [2]⟩ :=
    ⟨_, @Step.deallocate _ (.insertion _) [2] [] 1 rfl (by decide)⟩
  have hrun : ReflTransGen Calls ⟨a₀, []⟩ ⟨a₂.deallocate (.insertion _) 1, [2]⟩ :=
    ((ReflTransGen.single h₁).tail h₂).tail h₃
  have hactive : (a₂.deallocate (.insertion _) 1).active = [⟨1, 1⟩, ⟨3, 2⟩] := by decide +kernel
  obtain ⟨hsteps, -, -, -, -, hsum⟩ := refines_extract_min (by simp) h hrun
  exact ⟨a₀, _, h, hrun, rfl, hactive, hsteps, hsum⟩

end LionOS.Frames
