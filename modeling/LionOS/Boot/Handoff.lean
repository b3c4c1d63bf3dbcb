import LionOS.Boot.MemoryMap
import LionOS.Frames.Refinement

/-!
# From the bootloader's map to the frame allocator

`kernel_main` copies the bootloader's regions into a fixed array, has them validated,
collects the usable ones into another fixed array and initialises the frame allocator
with them. The first copy comes before the length check of the validator. An index out
of the array stops the kernel.
-/

namespace LionOS.Boot

open Lib Frames

/-- The region kinds of the bootloader; its enumeration is open. -/
inductive MemoryRegionKind where
  | usable
  | bootloader
  | unknownUefi (code : Nat)
  | unknownBios (code : Nat)
  | other
  deriving DecidableEq, Repr

/-- A region of the bootloader's map, in bytes. -/
structure MemoryRegion where
  start : Nat
  stop : Nat
  kind : MemoryRegionKind
  deriving DecidableEq, Repr

/-- The validator's coarser kind. -/
def toKind : MemoryRegionKind → RegionKind
  | .usable => .usable
  | .bootloader | .unknownUefi _ | .unknownBios _ => .reserved
  | .other => .reserved

/-- The triple the validator receives for a region. -/
def MemoryRegion.raw (r : MemoryRegion) : RawRegion := (r.start, r.stop, toKind r.kind)

/-- The copy loop into `raw`; `none` is an index out of bounds. -/
def copyRaw : List MemoryRegion → Nat → List RawRegion → Option (Nat × List RawRegion)
  | [], n, raw => some (n, raw)
  | r :: regions, n, raw =>
    if n < raw.length then copyRaw regions (n + 1) (raw.set n r.raw) else none

/-- The loop that collects the usable regions; `none` is an index out of bounds. -/
def collectUsable : List Region → Nat → List (Nat × Nat) → Option (Nat × List (Nat × Nat))
  | [], uc, usable => some (uc, usable)
  | r :: regions, uc, usable =>
    if r.kind = .usable then
      if uc < usable.length then
        collectUsable regions (uc + 1) (usable.set uc (r.start, r.stop))
      else none
    else collectUsable regions uc usable

/-- The memory-map part of `kernel_main`: the usable byte ranges, or the reported error.
`none` is an index out of bounds. -/
def memoryMap (s : KeySort Region.start) (regions : List MemoryRegion) :
    Option (Except MapError (List (Nat × Nat))) :=
  match copyRaw regions 0 (List.replicate maxRegions (0, 0, .usable)) with
  | none => none
  | some (n, raw) =>
    match validateRegionsBytes s (raw.take n) (List.replicate maxRegions .empty) with
    | (.error e, _) => some (.error e)
    | (.ok count, out) =>
      match collectUsable (out.take count) 0 (List.replicate maxRegions (0, 0)) with
      | none => none
      | some (uc, usable) => some (.ok (usable.take uc))

/-- The byte ranges of the usable regions. -/
def usablePairs (regions : List Region) : List (Nat × Nat) :=
  (regions.filter fun r => r.kind = .usable).map fun r => (r.start, r.stop)

/-- The first copy goes through when the array has room for all regions. -/
theorem copyRaw_of_le {regions : List MemoryRegion} (pre : List RawRegion) {raw : List RawRegion}
    (h : regions.length ≤ raw.length) :
    copyRaw regions pre.length (pre ++ raw) = some (pre.length + regions.length,
      pre ++ regions.map MemoryRegion.raw ++ raw.drop regions.length) := by
  induction regions generalizing pre raw with
  | nil => simp [copyRaw]
  | cons r regions ih =>
    cases raw with
    | nil => simp at h
    | cons o raw =>
      have hset : (pre ++ o :: raw).set pre.length r.raw = pre ++ [r.raw] ++ raw := by simp
      have hnext : pre.length + 1 = (pre ++ [r.raw]).length := by simp
      rw [copyRaw, if_pos (by simp), hset, hnext, ih (pre ++ [r.raw]) (by simpa using h)]
      simp only [List.length_append, List.length_cons, List.length_nil, List.map_cons,
        List.drop_succ_cons, List.append_assoc, List.singleton_append, Option.some.injEq,
        Prod.mk.injEq, and_true]
      omega

/-- It runs out of the array when there are more. -/
theorem copyRaw_of_gt {regions : List MemoryRegion} {raw : List RawRegion} {n : Nat}
    (hn : n ≤ raw.length) (h : raw.length < n + regions.length) :
    copyRaw regions n raw = none := by
  induction regions generalizing n raw with
  | nil =>
    simp only [List.length_nil] at h
    omega
  | cons r regions ih =>
    rw [copyRaw]
    by_cases hlt : n < raw.length
    · rw [if_pos hlt]
      apply ih
      · rw [List.length_set]
        omega
      · simp only [List.length_set, List.length_cons] at h ⊢
        omega
    · rw [if_neg hlt]

/-- The usable regions of a validated map fit in the second array. -/
private theorem collectUsable_eq (regions : List Region) (pre usable : List (Nat × Nat))
    (h : regions.length ≤ usable.length) :
    collectUsable regions pre.length (pre ++ usable) =
      some (pre.length + (usablePairs regions).length,
        pre ++ usablePairs regions ++ usable.drop (usablePairs regions).length) := by
  induction regions generalizing pre usable with
  | nil => simp [collectUsable, usablePairs]
  | cons r regions ih =>
    rw [collectUsable]
    by_cases hr : r.kind = .usable
    · cases usable with
      | nil => simp at h
      | cons o usable =>
        have hset : (pre ++ o :: usable).set pre.length (r.start, r.stop) =
            pre ++ [(r.start, r.stop)] ++ usable := by simp
        have hnext : pre.length + 1 = (pre ++ [(r.start, r.stop)]).length := by simp
        have hpairs : usablePairs (r :: regions) = (r.start, r.stop) :: usablePairs regions := by
          simp [usablePairs, hr]
        rw [if_pos hr, if_pos (by simp), hset, hnext,
          ih (pre ++ [(r.start, r.stop)]) usable (by simpa using h), hpairs]
        simp only [List.length_append, List.length_cons, List.length_nil,
          List.drop_succ_cons, List.append_assoc, List.singleton_append, Option.some.injEq,
          Prod.mk.injEq, and_true]
        omega
    · have hpairs : usablePairs (r :: regions) = usablePairs regions := by
        simp [usablePairs, hr]
      rw [if_neg hr, hpairs]
      exact ih pre usable (by simp only [List.length_cons] at h; omega)

/-- With at most as many regions as the array holds, the result is the validator's verdict
on them, and the usable ranges of an accepted map. -/
theorem memoryMap_of_le {s : KeySort Region.start} {regions : List MemoryRegion}
    (h : regions.length ≤ maxRegions) :
    memoryMap s regions =
      match validateRegionsBytes s (regions.map MemoryRegion.raw)
        (List.replicate maxRegions .empty) with
      | (.error e, _) => some (.error e)
      | (.ok count, out) => some (.ok (usablePairs (out.take count))) := by
  have hroom : regions.length ≤
      (List.replicate maxRegions ((0, 0, .usable) : RawRegion)).length := by simpa using h
  have hcopy := copyRaw_of_le [] hroom
  simp only [List.length_nil, List.nil_append, Nat.zero_add] at hcopy
  have htake : (regions.map MemoryRegion.raw ++
      (List.replicate maxRegions ((0, 0, .usable) : RawRegion)).drop regions.length).take
        regions.length = regions.map MemoryRegion.raw :=
    List.take_left' (by simp)
  simp only [memoryMap, hcopy, htake]
  cases hv : validateRegionsBytes s (regions.map MemoryRegion.raw)
    (List.replicate maxRegions .empty) with
  | mk res out =>
    cases res with
    | error e => rfl
    | ok count =>
      obtain ⟨hcount, hacc⟩ := validateRegionsBytes_spec hv
      have hlen : (out.take count).length ≤
          (List.replicate maxRegions ((0, 0) : Nat × Nat)).length := by
        rw [hacc.perm.length_eq, List.length_map, List.length_replicate]
        exact hacc.length_le
      have hcol := collectUsable_eq (out.take count) [] _ hlen
      simp only [List.length_nil, List.nil_append, Nat.zero_add] at hcol
      simp only [hcol, List.take_left]

/-- **The boot path indexes out of bounds exactly on maps that are too long.** It reports a
verdict, and reports maps of more than 64 regions as too long, if and only if the map
has at most 64 regions. -/
theorem memoryMap_reports_iff (s : KeySort Region.start) (regions : List MemoryRegion) :
    (∃ r, memoryMap s regions = some r ∧
      (maxRegions < regions.length → r = .error .tooManyRegions)) ↔
      regions.length ≤ maxRegions := by
  constructor
  · rintro ⟨r, hr, -⟩
    by_contra hlen
    have hcopy : copyRaw regions 0 (List.replicate maxRegions (0, 0, .usable)) = none :=
      copyRaw_of_gt (Nat.zero_le _) (by simp only [List.length_replicate]; omega)
    simp [memoryMap, hcopy] at hr
  · intro hlen
    rw [memoryMap_of_le hlen]
    split
    · exact ⟨_, rfl, fun h => absurd h (by omega)⟩
    · exact ⟨_, rfl, fun h => absurd h (by omega)⟩

/-- A map of 65 regions of one page each runs out of the array. -/
theorem sixty_five_regions_stop_the_kernel :
    memoryMap (.insertion _) ((List.range 65).map fun i => ⟨i * 4096, (i + 1) * 4096, .usable⟩) =
        none ∧
      ¬ ∃ r, memoryMap (.insertion _)
        ((List.range 65).map fun i => ⟨i * 4096, (i + 1) * 4096, .usable⟩) = some r := by
  have hcopy : copyRaw ((List.range 65).map fun i => ⟨i * 4096, (i + 1) * 4096, .usable⟩) 0
      (List.replicate maxRegions (0, 0, .usable)) = none :=
    copyRaw_of_gt (Nat.zero_le _) (by simp [maxRegions])
  have hnone : memoryMap (.insertion _)
      ((List.range 65).map fun i => ⟨i * 4096, (i + 1) * 4096, .usable⟩) = none := by
    simp only [memoryMap, hcopy]
  exact ⟨hnone, by simp [hnone]⟩

/-- The frame lies in some usable region of the map and above the floor. -/
def UsableFrame (input : List RawRegion) (floor f : Nat) : Prop :=
  ∃ start stop, (start, stop, RegionKind.usable) ∈ input ∧
    max start floor ≤ frameSize * f ∧ frameSize * (f + 1) ≤ stop

/-- `init` goes through on the usable regions without overflow, and its free frames are
the usable ones. -/
def HandsOutUsable (a : FrameAllocator) (s : KeySort FrameRun.start) (input : List RawRegion)
    (regions : List Region) (floor : Nat) : Prop :=
  ∃ a', a.init s (usablePairs regions) floor = some (.ok a') ∧
    ∀ f, f ∈ freeList a'.active ↔ UsableFrame input floor f

/-- The usable pairs of an accepted map are the usable ranges of its input. -/
theorem Accepted.mem_usablePairs {input : List RawRegion} {regions : List Region}
    (h : Accepted input regions) {p : Nat × Nat} :
    p ∈ usablePairs regions ↔ (p.1, p.2, RegionKind.usable) ∈ input := by
  simp only [usablePairs, List.mem_map, List.mem_filter, h.perm.mem_iff, decide_eq_true_eq]
  constructor
  · rintro ⟨r, ⟨⟨raw, hraw, rfl⟩, hk⟩, rfl⟩
    have hlt := h.nonempty raw hraw
    simp only [toRegion, Region.stop] at hk ⊢
    rw [Nat.add_sub_cancel' hlt.le, ← hk]
    exact hraw
  · intro hp
    have hlt := h.nonempty _ hp
    refine ⟨toRegion (p.1, p.2, .usable), ⟨⟨_, hp, rfl⟩, rfl⟩, ?_⟩
    simp only [toRegion, Region.stop] at hlt ⊢
    rw [Nat.add_sub_cancel' hlt.le]

/-- **Boot hands out exactly the usable frames, unless a range touches the last page.** For
an accepted map, `init` succeeds without overflow and its free frames are the whole
frames of usable regions above the floor, if and only if no usable region that reaches
above the floor starts, and no floor below its end lies, in the last page of the address
space. -/
theorem handsOutUsable_iff (a : FrameAllocator) (s : KeySort FrameRun.start)
    (t : KeySort Region.start) {input : List RawRegion} {out out' : List Region} {count : Nat}
    (floor : Nat) (h : validateRegionsBytes t input out = (.ok count, out')) :
    HandsOutUsable a s input (out'.take count) floor ↔
      ∀ start stop, (start, stop, RegionKind.usable) ∈ input → floor < stop →
        max start floor + frameSize < 2 ^ 64 := by
  obtain ⟨rfl, hacc⟩ := validateRegionsBytes_spec h
  have hlen : (usablePairs (out'.take input.length)).length ≤ maxRuns := by
    have hfilter := List.length_filter_le (fun r : Region => decide (r.kind = .usable))
      (out'.take input.length)
    rw [hacc.perm.length_eq, List.length_map] at hfilter
    have hle := hacc.length_le
    simp only [usablePairs, List.length_map, maxRuns, maxRegions] at hle ⊢
    omega
  -- A region of an accepted map is clipped unless it overflows.
  have hclip : (∀ r ∈ usablePairs (out'.take input.length),
      FrameAllocator.clip floor r ≠ none) ↔
      ∀ start stop, (start, stop, RegionKind.usable) ∈ input → floor < stop →
        max start floor + frameSize < 2 ^ 64 := by
    constructor
    · intro hall start stop hmem hfloor
      have hne := hall (start, stop) (hacc.mem_usablePairs.mpr hmem)
      have hlt : start < stop := hacc.nonempty _ hmem
      rw [ne_eq, FrameAllocator.clip_eq_none_iff] at hne
      simp only at hne
      omega
    · intro hall r hr hnone
      obtain ⟨hfloor, -, hov⟩ := FrameAllocator.clip_eq_none_iff.mp hnone
      have := hall r.1 r.2 (hacc.mem_usablePairs.mp hr) hfloor
      omega
  rw [← hclip]
  rcases a.init_of_length_le s floor hlen with ⟨⟨r, hr, hnone⟩, hinit⟩ |
    ⟨hall, a', hinit⟩
  · refine iff_of_false ?_ fun hall => hall r hr hnone
    rintro ⟨a', ha', -⟩
    simp [hinit] at ha'
  · refine iff_of_true ⟨a', hinit, fun f => ?_⟩ hall
    have hfree := (FrameAllocator.init_spec hinit).1
    rw [hfree, (freeList_perm (s.perm _)).mem_iff]
    simp only [freeList, List.mem_flatMap, List.mem_filterMap]
    constructor
    · rintro ⟨run, ⟨p, hp, hrun⟩, hf⟩
      have hbounds := (FrameAllocator.mem_runOf_iff (hall p hp)).mp ⟨run, hrun, hf⟩
      exact ⟨p.1, p.2, hacc.mem_usablePairs.mp hp, hbounds⟩
    · rintro ⟨start, stop, hmem, hbounds⟩
      have hp := hacc.mem_usablePairs (p := (start, stop)) |>.mpr hmem
      obtain ⟨run, hrun, hf⟩ := (FrameAllocator.mem_runOf_iff (hall _ hp)).mpr hbounds
      exact ⟨run, ⟨_, hp, hrun⟩, hf⟩

/-- A map of two regions out of order, one of them reserved. -/
def smallMap : List RawRegion := [(0x5000, 0x9000, .reserved), (0x1800, 0x5000, .usable)]

/-- Frames 2 to 4 are handed out for it above a floor of one page. -/
theorem handsOutUsable_smallMap :
    ∃ out', validateRegionsBytes (.insertion _) smallMap (List.replicate maxRegions .empty) =
        (.ok 2, out') ∧
      HandsOutUsable .empty (.insertion _) smallMap (out'.take 2) 0x1000 := by
  have hok : (validateRegionsBytes (.insertion _) smallMap
      (List.replicate maxRegions .empty)).1 = .ok 2 := by decide
  have hrun := Prod.fst_eq_iff.mp hok
  refine ⟨_, hrun, (handsOutUsable_iff .empty (.insertion _) (.insertion _) 0x1000 hrun).mpr ?_⟩
  intro start stop hmem _
  simp only [smallMap, List.mem_cons, Prod.mk.injEq, reduceCtorEq, and_false, and_true,
    List.not_mem_nil, or_false, false_or] at hmem
  simp only [frameSize]
  omega

/-- A map with one usable region in the last page of the address space. -/
def topMap : List RawRegion := [(2 ^ 64 - 4096, 2 ^ 64 - 1, .usable)]

/-- It is accepted, and rounding its start up overflows. -/
theorem init_overflows_in_last_page :
    ∃ out', validateRegionsBytes (.insertion _) topMap (List.replicate maxRegions .empty) =
        (.ok 1, out') ∧
      FrameAllocator.empty.init (.insertion _) (usablePairs (out'.take 1)) 0 = none ∧
      ¬ HandsOutUsable .empty (.insertion _) topMap (out'.take 1) 0 := by
  have hok : (validateRegionsBytes (.insertion _) topMap
      (List.replicate maxRegions .empty)).1 = .ok 1 := by decide
  have hnone : FrameAllocator.empty.init (.insertion _) (usablePairs
      ((validateRegionsBytes (.insertion _) topMap (List.replicate maxRegions .empty)).2.take 1))
        0 = none := by
    have hpairs : usablePairs ((validateRegionsBytes (.insertion _) topMap
        (List.replicate maxRegions .empty)).2.take 1) = [(2 ^ 64 - 4096, 2 ^ 64 - 1)] := by decide
    rw [hpairs]
    rfl
  refine ⟨_, Prod.fst_eq_iff.mp hok, hnone, ?_⟩
  rintro ⟨a', ha', -⟩
  simp [hnone] at ha'

end LionOS.Boot
