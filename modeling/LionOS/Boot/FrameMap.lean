import LionOS.Boot.MemoryMap
import Mathlib.Algebra.Group.Nat.Defs

/-!
# Memory maps in frame numbers

`validate_regions` takes its bounds as frame numbers and converts each entry with overflow
checks, in the order of the list; `validate_regions_bytes` takes them in bytes. Both sort
the buffer and look for overlaps in the same way, so they differ in the conversion loop
alone. Where no bound overflows the two loops do the same to the buffer, entry by entry.
-/

namespace LionOS.Boot

open Lib

/-- Size of a frame of the map. -/
def mapFrameSize : Nat := 4096

/-- Multiplication of `u64` values, `none` on overflow. -/
def checkedMul (a b : Nat) : Option Nat := if a * b < 2 ^ 64 then some (a * b) else none

/-- Convert a region in frame numbers to bytes. -/
def regionFromFrames (r : RawRegion) : Except MapError Region :=
  if r.2.1 ≤ r.1 then .error .zeroLength
  else
    match checkedMul r.1 mapFrameSize with
    | none => .error .endOverflow
    | some start =>
      match checkedMul r.2.1 mapFrameSize with
      | none => .error .endOverflow
      | some stop => .ok ⟨start, stop - start, r.2.2⟩

/-- The conversion loop, from slot `i` of the buffer on. -/
def fillFromFrames : List RawRegion → Nat → List Region → Except MapError Unit × List Region
  | [], _, out => (.ok (), out)
  | r :: input, i, out =>
    match regionFromFrames r with
    | .error e => (.error e, out)
    | .ok region => fillFromFrames input (i + 1) (out.set i region)

/-- Validate a map of frame ranges: the number of regions written, and the buffer. -/
def validateRegions (s : KeySort Region.start) (input : List RawRegion) (out : List Region) :
    Except MapError Nat × List Region :=
  if maxRegions < input.length || out.length < input.length then (.error .tooManyRegions, out)
  else
    match fillFromFrames input 0 out with
    | (.error e, out) => (.error e, out)
    | (.ok (), out) =>
      let count := input.length
      let regions := s.sort (out.take count)
      let out := regions ++ out.drop count
      if overlaps regions then (.error .overlap, out) else (.ok count, out)

/-- The bounds of a region in frame numbers, in bytes. -/
def inBytes (r : RawRegion) : RawRegion := (r.1 * 4096, r.2.1 * 4096, r.2.2)

/-- Both bounds fit a `u64` as byte addresses. -/
def Fits (r : RawRegion) : Prop := r.1 * 4096 < 2 ^ 64 ∧ r.2.1 * 4096 < 2 ^ 64

theorem regionFromFrames_of_fits {r : RawRegion} (h : Fits r) :
    regionFromFrames r =
      if (inBytes r).2.1 ≤ (inBytes r).1 then .error .zeroLength
      else .ok (toRegion (inBytes r)) := by
  obtain ⟨hstart, hstop⟩ := h
  have hle : (inBytes r).2.1 ≤ (inBytes r).1 ↔ r.2.1 ≤ r.1 := by
    simp only [inBytes]
    omega
  simp only [regionFromFrames, checkedMul, mapFrameSize, hstart, hstop, if_true, hle]
  rfl

/-- A region with frames whose end overflows is not converted. -/
theorem regionFromFrames_of_overflow {r : RawRegion} (hlt : r.1 < r.2.1)
    (hover : 2 ^ 64 ≤ r.2.1 * 4096) : regionFromFrames r = .error .endOverflow := by
  have hstop : checkedMul r.2.1 mapFrameSize = none := if_neg (Nat.not_lt.mpr hover)
  rw [regionFromFrames, if_neg (by omega), hstop]
  cases checkedMul r.1 mapFrameSize with
  | none => rfl
  | some start => rfl

/-- Over entries that fit, the two conversion loops do the same to the buffer. -/
theorem fillFromFrames_eq {input : List RawRegion} (h : ∀ r ∈ input, Fits r) (i : Nat)
    (out : List Region) :
    fillFromFrames input i out = fillRegions (input.map inBytes) i out := by
  induction input generalizing i out with
  | nil => rfl
  | cons r input ih =>
    obtain ⟨hr, hrest⟩ := List.forall_mem_cons.mp h
    rw [List.map_cons, fillFromFrames, fillRegions, regionFromFrames_of_fits hr]
    split_ifs
    · rfl
    · exact ih hrest _ _

/-- An entry that is not converted ends the loop with an error. -/
theorem fillFromFrames_of_error {input : List RawRegion} {r : RawRegion} {e : MapError}
    (hr : r ∈ input) (he : regionFromFrames r = .error e) (i : Nat) (out : List Region) :
    ∃ e', (fillFromFrames input i out).1 = .error e' := by
  induction input generalizing i out with
  | nil => exact absurd hr List.not_mem_nil
  | cons q input ih =>
    rw [fillFromFrames]
    cases hq : regionFromFrames q with
    | error e' => exact ⟨e', rfl⟩
    | ok region =>
      rcases List.mem_cons.mp hr with rfl | hr
      · rw [hq] at he
        cases he
      · exact ih hr _ _

/-- The validators run on one sort differ in nothing where the bounds fit. -/
theorem validateRegions_eq (s : KeySort Region.start) {input : List RawRegion}
    (h : ∀ r ∈ input, Fits r) (out : List Region) :
    validateRegions s input out = validateRegionsBytes s (input.map inBytes) out := by
  have hfill := fillFromFrames_eq h 0 out
  rcases hloop : fillRegions (input.map inBytes) 0 out with ⟨e | ⟨⟩, filled⟩
  · simp only [validateRegions, validateRegionsBytes, hfill, hloop, List.length_map]
  · simp only [validateRegions, validateRegionsBytes, hfill, hloop, List.length_map]

/-- The results agree, and the buffers of accepted maps up to the order of regions that
start at the same address. -/
structure Agree (x y : Except MapError Nat × List Region) : Prop where
  result : x.1 = y.1
  perm : ∀ n, x.1 = .ok n → (x.2.take n).Perm (y.2.take n)
  sorted : ∀ n, x.1 = .ok n → (x.2.take n).Pairwise (fun r q => r.start ≤ q.start) ∧
    (y.2.take n).Pairwise fun r q => r.start ≤ q.start
  rest : ∀ n, x.1 = .ok n → x.2.drop n = y.2.drop n

/-- The verdict does not depend on the sort. -/
private theorem validateRegionsBytes_fst (s s' : KeySort Region.start) (input : List RawRegion)
    (out : List Region) :
    (validateRegionsBytes s input out).1 = (validateRegionsBytes s' input out).1 := by
  by_cases hlen : input.length ≤ maxRegions ∧ input.length ≤ out.length
  · by_cases hpos : ∀ r ∈ input, r.1 < r.2.1
    · have hov : overlaps (s.sort (input.map toRegion)) =
          overlaps (s'.sort (input.map toRegion)) := by
        rw [Bool.eq_iff_iff, ← not_iff_not, Bool.not_eq_true, Bool.not_eq_true]
        exact (overlaps_sort hpos).trans (overlaps_sort hpos).symm
      rw [validateRegionsBytes_of_lt s hlen.1 hlen.2 hpos,
        validateRegionsBytes_of_lt s' hlen.1 hlen.2 hpos, hov]
    · -- both stop in the conversion loop, before anything is sorted
      push Not at hpos
      have herr := fillRegions_of_not_lt hpos 0 out
      unfold validateRegionsBytes
      cases hfill : fillRegions input 0 out with
      | mk res o =>
        rw [hfill] at herr
        obtain rfl : res = .error .zeroLength := herr
        rfl
  · have hmany : (maxRegions < input.length || out.length < input.length) = true := by
      simp only [Bool.or_eq_true, decide_eq_true_eq]
      omega
    rw [validateRegionsBytes, validateRegionsBytes, if_pos hmany, if_pos hmany]

/-- Two sorts give results that agree. -/
private theorem agree_validateRegionsBytes (s s' : KeySort Region.start) (input : List RawRegion)
    (out : List Region) :
    Agree (validateRegionsBytes s input out) (validateRegionsBytes s' input out) := by
  have hfst := validateRegionsBytes_fst s s' input out
  have hspec {t : KeySort Region.start} {n : Nat}
      (h : (validateRegionsBytes t input out).1 = .ok n) :=
    buffer_of_validateRegionsBytes (Prod.ext h rfl)
  refine ⟨hfst, fun n h => ?_, fun n h => ?_, fun n h => ?_⟩
  all_goals
    obtain ⟨-, hperm, hsorted, hrest⟩ := hspec h
    obtain ⟨-, hperm', hsorted', hrest'⟩ := hspec (hfst.symm.trans h)
  · exact hperm.trans hperm'.symm
  · exact ⟨hsorted, hsorted'⟩
  · exact hrest.trans hrest'.symm

/-- **The two validators agree.** For every list of entries and every buffer: if all bounds
fit as byte addresses, validating the frame numbers and validating the bounds in bytes give
the same error or the same count and the same regions, sorted by start, whatever the sorts
do with equal starts (and with one sort the same buffer). If some entry with frames has a
bound that overflows, the frame numbers are not accepted. -/
theorem validateRegions_agrees (s s' : KeySort Region.start) (input : List RawRegion)
    (out : List Region) :
    ((∀ r ∈ input, r.1 * 4096 < 2 ^ 64 ∧ r.2.1 * 4096 < 2 ^ 64) →
      validateRegions s input out = validateRegionsBytes s (input.map inBytes) out ∧
        Agree (validateRegions s input out) (validateRegionsBytes s' (input.map inBytes) out)) ∧
      ((∃ r ∈ input, r.1 < r.2.1 ∧ (2 ^ 64 ≤ r.1 * 4096 ∨ 2 ^ 64 ≤ r.2.1 * 4096)) →
        ∀ n, (validateRegions s input out).1 ≠ .ok n) := by
  constructor
  · intro hfits
    have heq := validateRegions_eq s hfits out
    exact ⟨heq, heq ▸ agree_validateRegionsBytes s s' _ out⟩
  · rintro ⟨r, hr, hlt, hover⟩ n hok
    obtain ⟨e, he⟩ := fillFromFrames_of_error hr
      (regionFromFrames_of_overflow hlt (by omega)) 0 out
    unfold validateRegions at hok
    split at hok
    · cases hok
    · cases hfill : fillFromFrames input 0 out with
      | mk res o =>
        rw [hfill] at he
        obtain rfl : res = .error e := he
        simp [hfill] at hok

/-- A map that both validators accept, and one whose last frame lies beyond 64 bits. -/
theorem validateRegions_agrees_two :
    validateRegions (.insertion _) [(3, 4, .usable), (1, 2, .reserved)] (List.replicate 2 .empty) =
        validateRegionsBytes (.insertion _) [(0x3000, 0x4000, .usable), (0x1000, 0x2000, .reserved)]
          (List.replicate 2 .empty) ∧
      ∀ n, (validateRegions (.insertion _) [(1, 2 ^ 52, .usable)] [.empty]).1 ≠ .ok n :=
  ⟨((validateRegions_agrees (.insertion _) (.insertion _) _ _).1 (by decide)).1,
    (validateRegions_agrees (.insertion _) (.insertion _) _ _).2 ⟨_, List.mem_cons_self, by decide⟩⟩

end LionOS.Boot
