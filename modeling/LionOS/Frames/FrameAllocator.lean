import LionOS.Lib.Sorting
import Mathlib.Data.List.Basic
import Mathlib.Data.List.Perm.Basic
import Mathlib.Data.Nat.Basic
import Mathlib.Tactic.Ring

/-!
# The physical frame allocator

`FrameAllocator` keeps a fixed array of runs of free frames, of which the first
`run_count` are in use. `init` collects, sorts and merges the runs of the usable
regions; `allocate` takes the first frame of the first non-empty run and may
leave an empty run behind; `deallocate` appends a one-frame run, re-sorts by
start and merges in place, reading ahead in the array it writes.

`sort_unstable_by` promises a permutation ordered by `start` and says nothing
about equal keys, so every call that sorts takes the sort as an argument. Only
`init` can overflow a `u64`, when it rounds a region start up to a frame.
-/

namespace LionOS.Frames

open Lib

/-- Size of one physical frame. -/
def frameSize : Nat := 4096

/-- Hard cap on free-run entries. -/
def maxRuns : Nat := 64

/-- A run of contiguous free frames `[start, start + count)`. -/
structure FrameRun where
  start : Nat
  count : Nat
  deriving DecidableEq, Repr

/-- The all-zero run that array slots start out with. -/
def FrameRun.empty : FrameRun := ⟨0, 0⟩

/-- Why `init` rejected the region set. -/
inductive FrameError where
  | tooManyRuns
  deriving DecidableEq, Repr

/-- The runs of the array in use, and the accounting. -/
structure FrameAllocator where
  /-- The array of `maxRuns` slots. -/
  runs : List FrameRun
  runCount : Nat
  total : Nat
  allocated : Nat
  /-- The array has its fixed length. -/
  runs_length : runs.length = maxRuns
  /-- The slots in use are slots of the array. -/
  runCount_le : runCount ≤ maxRuns

/-- Put a run behind the ones merged so far, extending the last one when adjacent. -/
def mergeInto (merged : List FrameRun) (r : FrameRun) : List FrameRun :=
  match merged.getLast? with
  | none => [r]
  | some p =>
    if p.start + p.count = r.start then merged.dropLast ++ [⟨p.start, p.count + r.count⟩]
    else merged ++ [r]

/-- The merge loop of `init`, from `collected` into the separate array `merged`. -/
def mergeCollected : List FrameRun → List FrameRun → Except FrameError (List FrameRun)
  | [], merged => .ok merged
  | r :: collected, merged =>
    if merged.getLast?.any fun p => p.start + p.count = r.start then
      mergeCollected collected (mergeInto merged r)
    else if maxRuns ≤ merged.length then .error .tooManyRuns
    else mergeCollected collected (merged ++ [r])

/-- Merging keeps the runs inside the array they are written to. -/
theorem mergeCollected_length {l merged out : List FrameRun} (hm : merged.length ≤ maxRuns)
    (h : mergeCollected l merged = .ok out) : out.length ≤ maxRuns := by
  induction l generalizing merged with
  | nil =>
    obtain rfl := Except.ok.inj h
    exact hm
  | cons r l ih =>
    unfold mergeCollected at h
    split at h
    next hadj =>
      refine ih ?_ h
      rcases List.eq_nil_or_concat merged with rfl | ⟨merged, p, rfl⟩
      · simp at hadj
      · simp only [List.concat_eq_append, List.length_append, List.length_singleton] at hm
        simp only [List.concat_eq_append, List.getLast?_concat, Option.any_some,
          decide_eq_true_eq] at hadj
        simpa [mergeInto, hadj] using hm
    next =>
      split at h
      · exact absurd h (by simp)
      · exact ih (by simp only [List.length_append, List.length_singleton]; omega) h

/-- The merge loop of `deallocate`, in place: slot `i` is read, slots below `m` are
written. Returns the number of merged runs and the array. -/
def mergeInPlace : (left i m : Nat) → List FrameRun → Nat × List FrameRun
  | 0, _, m, runs => (m, runs)
  | left + 1, i, m, runs =>
    let cur := runs.getD i .empty
    let last := runs.getD (m - 1) .empty
    if 0 < m ∧ last.start + last.count = cur.start then
      mergeInPlace left (i + 1) m (runs.set (m - 1) ⟨last.start, last.count + cur.count⟩)
    else mergeInPlace left (i + 1) (m + 1) (runs.set m cur)

theorem mergeInPlace_length (left i m : Nat) (runs : List FrameRun) :
    (mergeInPlace left i m runs).2.length = runs.length := by
  induction left generalizing i m runs with
  | zero => rfl
  | succ left ih =>
    unfold mergeInPlace
    simp only
    split <;> simp [ih]

theorem mergeInPlace_le (left i m : Nat) (runs : List FrameRun) :
    (mergeInPlace left i m runs).1 ≤ m + left := by
  induction left generalizing i m runs with
  | zero => exact le_rfl
  | succ left ih =>
    unfold mergeInPlace
    simp only
    split
    · exact le_trans (ih ..) (by omega)
    · exact le_trans (ih ..) (by omega)

namespace FrameAllocator

/-- All-zero, uninitialized allocator. -/
def empty : FrameAllocator where
  runs := List.replicate maxRuns .empty
  runCount := 0
  total := 0
  allocated := 0
  runs_length := List.length_replicate
  runCount_le := Nat.zero_le _

/-- The run of whole frames of one region above the floor. The outer `none` is an
arithmetic overflow, the inner one a region that is skipped. -/
def clip (floor : Nat) (region : Nat × Nat) : Option (Option FrameRun) :=
  if region.2 ≤ floor then some none
  else
    let s := max region.1 floor
    if region.2 ≤ s then some none
    else if 2 ^ 64 ≤ s + frameSize then none
    else
      let startFrame := (s + frameSize - 1) / frameSize
      let endFrame := region.2 / frameSize
      if endFrame ≤ startFrame then some none
      else some (some ⟨startFrame, endFrame - startFrame⟩)

/-- The first loop of `init`: the runs of all regions, in region order. -/
def collect (floor : Nat) :
    List (Nat × Nat) → List FrameRun → Option (Except FrameError (List FrameRun))
  | [], collected => some (.ok collected)
  | region :: regions, collected =>
    match clip floor region with
    | none => none
    | some none => collect floor regions collected
    | some (some run) =>
      if maxRuns ≤ collected.length then some (.error .tooManyRuns)
      else collect floor regions (collected ++ [run])

/-- Sum of the run lengths. -/
def countSum (l : List FrameRun) : Nat := (l.map FrameRun.count).sum

/-- The runs in use. -/
def active (a : FrameAllocator) : List FrameRun := a.runs.take a.runCount

/-- `self.runs[..m].copy_from_slice(&merged[..m])` and the new accounting. -/
def install (a : FrameAllocator) (merged : List FrameRun) (hm : merged.length ≤ maxRuns) :
    FrameAllocator where
  runs := merged ++ a.runs.drop merged.length
  runCount := merged.length
  total := countSum merged
  allocated := 0
  runs_length := by
    simp only [List.length_append, List.length_drop, a.runs_length]
    omega
  runCount_le := hm

/-- `init`: `none` is an arithmetic overflow. -/
def init (a : FrameAllocator) (s : KeySort FrameRun.start) (regions : List (Nat × Nat))
    (floor : Nat) : Option (Except FrameError FrameAllocator) :=
  match collect floor regions [] with
  | none => none
  | some (.error e) => some (.error e)
  | some (.ok collected) =>
    match hm : mergeCollected (s.sort collected) [] with
    | .error e => some (.error e)
    | .ok merged => some (.ok (a.install merged (mergeCollected_length (Nat.zero_le _) hm)))

/-- Total frames made available at `init`. -/
def totalFrames (a : FrameAllocator) : Nat := a.total

/-- Frames still free. -/
def freeFrames (a : FrameAllocator) : Nat := countSum a.active

/-- Frames currently allocated. -/
def allocatedFrames (a : FrameAllocator) : Nat := a.allocated

/-- The index of the first non-empty run among the next `left` slots from `i` on. -/
def firstFree (runs : List FrameRun) : (left i : Nat) → Option Nat
  | 0, _ => none
  | left + 1, i => if 0 < (runs.getD i .empty).count then some i else firstFree runs left (i + 1)

/-- Hand out the first frame of the run in slot `i`. -/
def takeFrom (a : FrameAllocator) (i : Nat) : FrameAllocator :=
  let r := a.runs.getD i .empty
  { a with
    runs := a.runs.set i ⟨r.start + 1, r.count - 1⟩
    allocated := a.allocated + 1
    runs_length := by simp [a.runs_length] }

/-- `allocate`: the frame number and the allocator afterwards. -/
def allocate (a : FrameAllocator) : Option (Nat × FrameAllocator) :=
  match firstFree a.runs a.runCount 0 with
  | none => none
  | some i => some ((a.runs.getD i .empty).start, a.takeFrom i)

/-- The array of `deallocate` after its sort: the slots in use and the freed frame. -/
def sortedRuns (a : FrameAllocator) (s : KeySort FrameRun.start) (frame : Nat) : List FrameRun :=
  s.sort ((a.runs.set a.runCount ⟨frame, 1⟩).take (a.runCount + 1)) ++
    a.runs.drop (a.runCount + 1)

theorem sortedRuns_length (a : FrameAllocator) (s : KeySort FrameRun.start) (frame : Nat)
    (h : a.runCount < maxRuns) : (a.sortedRuns s frame).length = maxRuns := by
  simp only [sortedRuns, List.length_append, (s.perm _).length_eq, List.length_take,
    List.length_set, List.length_drop, a.runs_length]
  omega

/-- `deallocate`: a full run list silently drops the frame. -/
def deallocate (a : FrameAllocator) (s : KeySort FrameRun.start) (frame : Nat) : FrameAllocator :=
  if h : a.runCount < maxRuns then
    let runs := a.sortedRuns s frame
    let r := mergeInPlace (a.runCount + 1) 0 0 runs
    { a with
      runs := r.2
      runCount := r.1
      allocated := a.allocated - 1
      runs_length := (mergeInPlace_length ..).trans (a.sortedRuns_length s frame h)
      runCount_le := le_trans (mergeInPlace_le ..) (by omega) }
  else a

end FrameAllocator

end LionOS.Frames
