import LionOS.Frames.FrameAllocator

/-!
# The free frames of a list of runs

Listing the frames of all runs in array order gives the free frames. Merging
adjacent runs, in place or not, does not change that list, and ordering runs by
start makes it strictly increasing as soon as no frame is listed twice, however
empty runs and runs with equal starts are arranged.
-/

namespace LionOS.Frames

/-- The frame numbers of a run. -/
def FrameRun.frames (r : FrameRun) : List Nat := List.range' r.start r.count

@[simp] theorem FrameRun.mem_frames {r : FrameRun} {f : Nat} :
    f ∈ r.frames ↔ r.start ≤ f ∧ f < r.start + r.count := by
  simp only [FrameRun.frames, List.mem_range'_1]

/-- The frames of all runs, in the order the runs are listed. -/
def freeList (l : List FrameRun) : List Nat := l.flatMap FrameRun.frames

@[simp] theorem freeList_nil : freeList [] = [] := rfl

@[simp] theorem freeList_cons (r : FrameRun) (l : List FrameRun) :
    freeList (r :: l) = r.frames ++ freeList l := rfl

@[simp] theorem freeList_append (l l' : List FrameRun) :
    freeList (l ++ l') = freeList l ++ freeList l' := by
  simp [freeList]

theorem mem_freeList {l : List FrameRun} {f : Nat} : f ∈ freeList l ↔ ∃ r ∈ l, f ∈ r.frames :=
  List.mem_flatMap

/-- The accounting sum counts the free frames. -/
theorem length_freeList (l : List FrameRun) : (freeList l).length = FrameAllocator.countSum l := by
  induction l with
  | nil => rfl
  | cons r l ih =>
    simp only [freeList_cons, List.length_append, ih, FrameRun.frames, List.length_range',
      FrameAllocator.countSum, List.map_cons, List.sum_cons]

/-- Reordering runs reorders frames. -/
theorem freeList_perm {l l' : List FrameRun} (h : l.Perm l') : (freeList l).Perm (freeList l') :=
  h.flatMap_right _

/-- Two adjacent runs list the frames of their union. -/
private theorem frames_append_adjacent {p r : FrameRun} (h : p.start + p.count = r.start) :
    p.frames ++ r.frames = (FrameRun.mk p.start (p.count + r.count)).frames := by
  simp only [FrameRun.frames, ← h]
  rw [List.range'_append_1]

/-- Merging a run into the last one does not change the frames listed. -/
private theorem freeList_mergeInto (merged : List FrameRun) (r : FrameRun) :
    freeList (mergeInto merged r) = freeList merged ++ r.frames := by
  rcases List.eq_nil_or_concat merged with rfl | ⟨merged, p, rfl⟩
  · simp [mergeInto]
  · simp only [List.concat_eq_append, mergeInto, List.getLast?_concat, List.dropLast_concat]
    split
    next h => simp [← frames_append_adjacent h]
    next => simp

theorem freeList_foldl_mergeInto (l merged : List FrameRun) :
    freeList (l.foldl mergeInto merged) = freeList merged ++ freeList l := by
  induction l generalizing merged with
  | nil => simp
  | cons r l ih => simp [ih, freeList_mergeInto]

/-- A run that is not adjacent to the last one is appended. -/
theorem mergeInto_of_not_adjacent {merged : List FrameRun} {r : FrameRun}
    (h : ¬ merged.getLast?.any fun p => p.start + p.count = r.start) :
    mergeInto merged r = merged ++ [r] := by
  rcases List.eq_nil_or_concat merged with rfl | ⟨merged, p, rfl⟩
  · rfl
  · simp only [List.concat_eq_append, List.getLast?_concat, Option.any_some,
      decide_eq_true_eq] at h
    simp [mergeInto, h]

/-- The merge loop of `init` folds `mergeInto` over the collected runs. -/
theorem mergeCollected_eq {l merged out : List FrameRun} (h : mergeCollected l merged = .ok out) :
    out = l.foldl mergeInto merged := by
  induction l generalizing merged with
  | nil => exact (Except.ok.inj h).symm
  | cons r l ih =>
    unfold mergeCollected at h
    split at h
    · exact ih h
    next hadj =>
      split at h
      · exact absurd h (by simp)
      · rw [List.foldl_cons, mergeInto_of_not_adjacent hadj]
        exact ih h

/-- Reading slot `i` of the array before writing below it. -/
private theorem take_drop_succ {runs : List FrameRun} {i left : Nat} (h : i < runs.length) :
    (runs.drop i).take (left + 1) =
      runs.getD i .empty :: (runs.drop (i + 1)).take left := by
  rw [List.drop_eq_getElem_cons h, List.take_succ_cons]
  simp [List.getD_eq_getElem?_getD, List.getElem?_eq_getElem h]

/-- Merging in place folds `mergeInto` over the slots from `i` on: the write position
never passes the read position, so no slot is overwritten before it is read. -/
theorem mergeInPlace_eq (left i m : Nat) (runs : List FrameRun) (hm : m ≤ i)
    (hi : i + left ≤ runs.length) :
    (mergeInPlace left i m runs).2.take (mergeInPlace left i m runs).1 =
      ((runs.drop i).take left).foldl mergeInto (runs.take m) := by
  induction left generalizing i m runs with
  | zero => simp [mergeInPlace]
  | succ left ih =>
    have hil : i < runs.length := by omega
    rw [take_drop_succ hil, List.foldl_cons]
    unfold mergeInPlace
    simp only
    split
    next hadj =>
      obtain ⟨k, rfl⟩ : ∃ k, m = k + 1 := ⟨m - 1, by omega⟩
      have hk : k < runs.length := by omega
      have htake : runs.take (k + 1) = runs.take k ++ [runs.getD k .empty] := by
        rw [List.take_succ_eq_append_getElem hk]
        simp [List.getD_eq_getElem?_getD, List.getElem?_eq_getElem hk]
      simp only [Nat.add_sub_cancel] at hadj ⊢
      rw [ih _ _ _ (by omega) (by simp only [List.length_set]; omega),
        List.drop_set_of_lt (by omega)]
      congr 1
      rw [htake]
      simp only [mergeInto, List.getLast?_concat, List.dropLast_concat, if_pos hadj.2]
      rw [List.take_set, htake, List.set_append_right _ _ (by simp only [List.length_take]; omega)]
      simp [Nat.min_eq_left (Nat.le_of_lt hk)]
    next hadj =>
      rw [ih _ _ _ (by omega) (by simp only [List.length_set]; omega),
        List.drop_set_of_lt (by omega)]
      congr 1
      have hml : m < runs.length := by omega
      have htake : (runs.set m (runs.getD i .empty)).take (m + 1) =
          runs.take m ++ [runs.getD i .empty] := by
        rw [List.take_succ_eq_append_getElem (by simpa using hml)]
        simp [List.take_set_of_le]
      rw [htake]
      symm
      apply mergeInto_of_not_adjacent
      cases m with
      | zero => simp
      | succ k =>
        have hk : k < runs.length := by omega
        rw [List.take_succ_eq_append_getElem hk, List.getLast?_concat, Option.any_some]
        simpa [List.getD_eq_getElem?_getD, List.getElem?_eq_getElem hk] using hadj

/-- Runs ordered by start list their frames in strictly increasing order, if no frame
is listed twice. -/
theorem freeList_increasing {l : List FrameRun} (hs : l.Pairwise fun a b => a.start ≤ b.start)
    (hn : (freeList l).Nodup) : (freeList l).Pairwise (· < ·) := by
  induction l with
  | nil => exact List.Pairwise.nil
  | cons r l ih =>
    obtain ⟨hr, hl⟩ := List.pairwise_cons.mp hs
    rw [freeList_cons] at hn ⊢
    obtain ⟨-, hnl, hdisj⟩ := List.nodup_append.mp hn
    refine List.pairwise_append.mpr ⟨List.pairwise_lt_range', ih hl hnl, ?_⟩
    intro x hx y hy
    obtain ⟨q, hq, hyq⟩ := mem_freeList.mp hy
    have hle := hr q hq
    have hne : q.start ∉ r.frames := by
      intro hm
      refine hdisj _ hm _ (mem_freeList.mpr ⟨q, hq, ?_⟩) rfl
      simp only [FrameRun.mem_frames] at hyq ⊢
      omega
    simp only [FrameRun.mem_frames] at hx hyq hne
    omega

end LionOS.Frames
