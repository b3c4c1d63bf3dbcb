import LionOS.Lib.Sorting
import Mathlib.Data.List.Basic

/-!
# Validation of the memory map

The bootloader's regions are byte ranges with a kind. `validate_regions_bytes` converts
them into the caller's buffer, sorts the buffer by start and rejects usable regions that
overlap. Starts and ends are `u64` values with the start below the end, so neither the
length nor the end computed back from it overflows.
-/

namespace LionOS.Boot

open Lib

/-- What a region of physical memory may be used for. -/
inductive RegionKind where
  | usable
  | reserved
  | nonUsable
  deriving DecidableEq, Repr

/-- A validated region, in bytes. -/
structure Region where
  start : Nat
  len : Nat
  kind : RegionKind
  deriving DecidableEq, Repr

/-- The zero-length region that buffer slots start out with. -/
def Region.empty : Region := ⟨0, 0, .usable⟩

/-- Exclusive end address. -/
def Region.stop (r : Region) : Nat := r.start + r.len

/-- Why a memory map was rejected. -/
inductive MapError where
  | tooManyRegions
  | zeroLength
  | endOverflow
  | overlap
  deriving DecidableEq, Repr

/-- The most regions the kernel accepts. -/
def maxRegions : Nat := 64

/-- A region as the validator receives it: start, end and kind. -/
abbrev RawRegion := Nat × Nat × RegionKind

/-- The region a raw one is converted to. -/
def toRegion (r : RawRegion) : Region := ⟨r.1, r.2.1 - r.1, r.2.2⟩

/-- The conversion loop, from slot `i` of the buffer on. -/
def fillRegions : List RawRegion → Nat → List Region → Except MapError Unit × List Region
  | [], _, out => (.ok (), out)
  | r :: input, i, out =>
    if r.2.1 ≤ r.1 then (.error .zeroLength, out)
    else fillRegions input (i + 1) (out.set i (toRegion r))

/-- The two overlap loops: some usable region starts below the end of an earlier one. -/
def overlaps : List Region → Bool
  | [] => false
  | r :: rs => (r.kind == .usable && rs.any fun q => q.kind == .usable && q.start < r.stop) ||
      overlaps rs

/-- Validate a map of byte ranges: the number of regions written, and the buffer. -/
def validateRegionsBytes (s : KeySort Region.start) (input : List RawRegion) (out : List Region) :
    Except MapError Nat × List Region :=
  if maxRegions < input.length || out.length < input.length then (.error .tooManyRegions, out)
  else
    match fillRegions input 0 out with
    | (.error e, out) => (.error e, out)
    | (.ok (), out) =>
      let count := input.length
      let regions := s.sort (out.take count)
      let out := regions ++ out.drop count
      if overlaps regions then (.error .overlap, out) else (.ok count, out)

/-- Regions with bytes are all converted, into the slots from the first free one on. -/
theorem fillRegions_of_lt {input : List RawRegion} (pre : List Region) {out : List Region}
    (hpos : ∀ r ∈ input, r.1 < r.2.1) (hlen : input.length ≤ out.length) :
    fillRegions input pre.length (pre ++ out) =
      (.ok (), pre ++ input.map toRegion ++ out.drop input.length) := by
  induction input generalizing pre out with
  | nil => simp [fillRegions]
  | cons r input ih =>
    obtain ⟨hr, hpos⟩ := List.forall_mem_cons.mp hpos
    cases out with
    | nil => simp at hlen
    | cons o out =>
      have hset : (pre ++ o :: out).set pre.length (toRegion r) = pre ++ [toRegion r] ++ out := by
        simp
      have hnext : pre.length + 1 = (pre ++ [toRegion r]).length := by simp
      rw [fillRegions, if_neg (by omega), hset, hnext,
        ih (pre ++ [toRegion r]) hpos (by simpa using hlen)]
      simp

/-- A region without bytes is reported. -/
theorem fillRegions_of_not_lt {input : List RawRegion} (h : ∃ r ∈ input, r.2.1 ≤ r.1) (i : Nat)
    (out : List Region) : (fillRegions input i out).1 = .error .zeroLength := by
  induction input generalizing i out with
  | nil => simp at h
  | cons r input ih =>
    rw [fillRegions]
    by_cases hr : r.2.1 ≤ r.1
    · rw [if_pos hr]
    · rw [if_neg hr]
      obtain ⟨q, hq, hle⟩ := h
      rcases List.mem_cons.mp hq with rfl | hq
      · exact absurd hle hr
      · exact ih ⟨q, hq, hle⟩ _ _

/-- No overlap is reported exactly when every usable region ends before the usable ones
behind it start. -/
theorem overlaps_eq_false {l : List Region} :
    overlaps l = false ↔
      l.Pairwise fun r q => r.kind = .usable → q.kind = .usable → r.stop ≤ q.start := by
  induction l with
  | nil => simp [overlaps]
  | cons r l ih =>
    simp only [overlaps, Bool.or_eq_false_iff, ih, List.pairwise_cons]
    refine and_congr_left fun _ => ?_
    by_cases hr : r.kind = .usable
    · simp [hr]
    · simp [hr]

/-- What an accepted map looks like: all regions have bytes, the buffer starts with the
converted regions in some order, and usable regions end before later ones start. -/
structure Accepted (input : List RawRegion) (regions : List Region) : Prop where
  length_le : input.length ≤ maxRegions
  nonempty : ∀ r ∈ input, r.1 < r.2.1
  perm : regions.Perm (input.map toRegion)
  apart : regions.Pairwise fun r q => r.kind = .usable → q.kind = .usable → r.stop ≤ q.start

/-- What the validator does with regions that have bytes and fit the buffer: it sorts them
into the front of the buffer and looks for overlaps. -/
theorem validateRegionsBytes_of_lt (s : KeySort Region.start) {input : List RawRegion}
    {out : List Region} (hmax : input.length ≤ maxRegions) (hout : input.length ≤ out.length)
    (hpos : ∀ r ∈ input, r.1 < r.2.1) :
    validateRegionsBytes s input out =
      (if overlaps (s.sort (input.map toRegion)) then .error .overlap else .ok input.length,
        s.sort (input.map toRegion) ++ out.drop input.length) := by
  have hfill := fillRegions_of_lt [] hpos hout
  simp only [List.length_nil, List.nil_append] at hfill
  have htake : (input.map toRegion ++ out.drop input.length).take input.length =
      input.map toRegion :=
    List.take_left' (by simp)
  have hdrop : (input.map toRegion ++ out.drop input.length).drop input.length =
      out.drop input.length :=
    List.drop_left' (by simp)
  have hlen : (maxRegions < input.length || out.length < input.length) = false := by
    simp only [Bool.or_eq_false_iff, decide_eq_false_iff_not]
    omega
  rw [validateRegionsBytes, hlen, hfill]
  simp only [Bool.false_eq_true, if_false, htake, hdrop]
  split
  · rfl
  · rfl

/-- The validator accepts only regions that have bytes and fit the buffer. -/
theorem lt_of_validateRegionsBytes {s : KeySort Region.start} {input : List RawRegion}
    {out out' : List Region} {count : Nat}
    (h : validateRegionsBytes s input out = (.ok count, out')) :
    input.length ≤ maxRegions ∧ input.length ≤ out.length ∧ ∀ r ∈ input, r.1 < r.2.1 := by
  unfold validateRegionsBytes at h
  split at h
  next => simp at h
  next hlen =>
    simp only [Bool.or_eq_true, decide_eq_true_eq, not_or, Nat.not_lt] at hlen
    refine ⟨hlen.1, hlen.2, fun r hr => ?_⟩
    by_contra hle
    have herr := fillRegions_of_not_lt ⟨r, hr, Nat.le_of_not_lt hle⟩ 0 out
    cases hfill : fillRegions input 0 out with
    | mk res o =>
      rw [hfill] at herr
      obtain rfl : res = .error .zeroLength := herr
      simp [hfill] at h

/-- Specification of an accepting run of the validator. -/
theorem validateRegionsBytes_spec {s : KeySort Region.start} {input : List RawRegion}
    {out out' : List Region} {count : Nat}
    (h : validateRegionsBytes s input out = (.ok count, out')) :
    count = input.length ∧ Accepted input (out'.take count) := by
  obtain ⟨hmax, hout, hpos⟩ := lt_of_validateRegionsBytes h
  rw [validateRegionsBytes_of_lt s hmax hout hpos] at h
  obtain ⟨hres, rfl⟩ := Prod.mk.inj h
  split at hres
  next => cases hres
  next hov =>
    obtain rfl := Except.ok.inj hres
    have hperm := s.perm (input.map toRegion)
    have hslen : (s.sort (input.map toRegion)).length = input.length := by
      rw [hperm.length_eq, List.length_map]
    rw [List.take_left' hslen]
    exact ⟨rfl, hmax, hpos, hperm, overlaps_eq_false.mp (by simpa using hov)⟩

/-- The two regions are not both usable, or they share no byte. -/
def Safe (r q : RawRegion) : Prop :=
  r.2.2 = .usable → q.2.2 = .usable → ∀ x, ¬ (r.1 ≤ x ∧ x < r.2.1 ∧ q.1 ≤ x ∧ x < q.2.1)

/-- The same of converted regions. -/
def Region.Safe (r q : Region) : Prop :=
  r.kind = .usable → q.kind = .usable →
    ∀ x, ¬ (r.start ≤ x ∧ x < r.stop ∧ q.start ≤ x ∧ x < q.stop)

theorem Region.Safe.symm {r q : Region} (h : r.Safe q) : q.Safe r := by
  intro hq hr x hx
  exact h hr hq x ⟨hx.2.2.1, hx.2.2.2, hx.1, hx.2.1⟩

theorem safe_toRegion {r q : RawRegion} (hr : r.1 < r.2.1) (hq : q.1 < q.2.1) :
    (toRegion r).Safe (toRegion q) ↔ Safe r q := by
  have hrstop : (toRegion r).stop = r.2.1 := by
    simp only [Region.stop, toRegion]
    omega
  have hqstop : (toRegion q).stop = q.2.1 := by
    simp only [Region.stop, toRegion]
    omega
  rw [Region.Safe, hrstop, hqstop]
  rfl

/-- Of two regions in order, the first ends before the second starts if and only if they
share no byte. -/
theorem Region.safe_iff_stop_le {r q : Region} (hle : r.start ≤ q.start) (hq : 0 < q.len) :
    r.Safe q ↔ (r.kind = .usable → q.kind = .usable → r.stop ≤ q.start) := by
  refine imp_congr_right fun _ => imp_congr_right fun _ => ?_
  simp only [Region.stop]
  constructor
  · intro h
    by_contra hlt
    exact h q.start (by omega)
  · intro h x
    omega

/-- In a sorted list of regions with bytes, the overlap test looks at every pair. -/
private theorem overlaps_eq_false_iff_safe {l : List Region}
    (hsorted : l.Pairwise fun r q => r.start ≤ q.start) (hpos : ∀ r ∈ l, 0 < r.len) :
    overlaps l = false ↔ l.Pairwise Region.Safe := by
  rw [overlaps_eq_false]
  have hmem := List.Pairwise.and_mem.mp hsorted
  constructor
  · intro h
    refine (hmem.and h).imp ?_
    rintro r q ⟨⟨-, hq, hle⟩, hstop⟩
    exact (Region.safe_iff_stop_le hle (hpos q hq)).mpr hstop
  · intro h
    refine (hmem.and h).imp ?_
    rintro r q ⟨⟨-, hq, hle⟩, hsafe⟩
    exact (Region.safe_iff_stop_le hle (hpos q hq)).mp hsafe

/-- The sorted regions are safe if and only if the regions are, in whatever order. -/
theorem overlaps_sort {s : KeySort Region.start} {input : List RawRegion}
    (hpos : ∀ r ∈ input, r.1 < r.2.1) :
    overlaps (s.sort (input.map toRegion)) = false ↔ input.Pairwise Safe := by
  have hperm := s.perm (input.map toRegion)
  have hlen : ∀ r ∈ s.sort (input.map toRegion), 0 < r.len := by
    intro r hr
    obtain ⟨q, hq, rfl⟩ := List.mem_map.mp (hperm.mem_iff.mp hr)
    exact Nat.sub_pos_of_lt (hpos q hq)
  rw [overlaps_eq_false_iff_safe (s.sorted _) hlen,
    hperm.pairwise_iff fun h => Region.Safe.symm h, List.pairwise_map]
  constructor
  · intro h
    refine (List.Pairwise.and_mem.mp h).imp ?_
    rintro r q ⟨hr, hq, hsafe⟩
    exact (safe_toRegion (hpos r hr) (hpos q hq)).mp hsafe
  · intro h
    refine (List.Pairwise.and_mem.mp h).imp ?_
    rintro r q ⟨hr, hq, hsafe⟩
    exact (safe_toRegion (hpos r hr) (hpos q hq)).mpr hsafe

/-- The buffer of an accepted map: the converted regions in order of start, and behind them
what was there before. -/
theorem buffer_of_validateRegionsBytes {s : KeySort Region.start} {input : List RawRegion}
    {out out' : List Region} {n : Nat} (h : validateRegionsBytes s input out = (.ok n, out')) :
    n = input.length ∧ (out'.take n).Perm (input.map toRegion) ∧
      ((out'.take n).Pairwise fun r q => r.start ≤ q.start) ∧ out'.drop n = out.drop n := by
  obtain ⟨hmax, hout, hpos⟩ := lt_of_validateRegionsBytes h
  rw [validateRegionsBytes_of_lt s hmax hout hpos] at h
  obtain ⟨hres, rfl⟩ := Prod.mk.inj h
  obtain rfl : input.length = n := by
    split at hres
    · cases hres
    · exact Except.ok.inj hres
  have hperm := s.perm (input.map toRegion)
  have hslen : (s.sort (input.map toRegion)).length = input.length := by
    rw [hperm.length_eq, List.length_map]
  rw [List.take_left' hslen, List.drop_left' hslen]
  exact ⟨rfl, hperm, s.sorted _, rfl⟩

/-- **The validator accepts exactly the safe maps.** For every list of regions, every buffer
and every sort: it returns `Ok` if and only if there are at most 64 regions, the buffer has
room for them, each has bytes and no two usable ones share a byte. Then it returns their
number, the front of the buffer is the converted regions in order of start, and the rest of
the buffer is as it was. -/
theorem validateRegionsBytes_exact (s : KeySort Region.start) (input : List RawRegion)
    (out : List Region) :
    ((∃ n out', validateRegionsBytes s input out = (.ok n, out')) ↔
      input.length ≤ 64 ∧ input.length ≤ out.length ∧ (∀ r ∈ input, r.1 < r.2.1) ∧
        input.Pairwise Safe) ∧
      ∀ n out', validateRegionsBytes s input out = (.ok n, out') →
        n = input.length ∧ (out'.take n).Perm (input.map toRegion) ∧
          ((out'.take n).Pairwise fun r q => r.start ≤ q.start) ∧ out'.drop n = out.drop n := by
  refine ⟨⟨?_, ?_⟩, ?_⟩
  · rintro ⟨n, out', h⟩
    obtain ⟨hmax, hout, hpos⟩ := lt_of_validateRegionsBytes h
    rw [validateRegionsBytes_of_lt s hmax hout hpos] at h
    refine ⟨hmax, hout, hpos, (overlaps_sort (s := s) hpos).mp ?_⟩
    cases hov : overlaps (s.sort (input.map toRegion)) with
    | false => rfl
    | true => simp [hov] at h
  · rintro ⟨hmax, hout, hpos, hsafe⟩
    rw [validateRegionsBytes_of_lt s hmax hout hpos, (overlaps_sort hpos).mpr hsafe]
    exact ⟨_, _, rfl⟩
  · intro n out' h
    exact buffer_of_validateRegionsBytes h

/-- A map with a usable region inside a reserved one, and one with two usable regions that
start at the same address. -/
example : (validateRegionsBytes (.insertion _) [(0x3000, 0x4000, .usable),
      (0x1000, 0x5000, .reserved)] (List.replicate 2 .empty)).1 = .ok 2 ∧
    (validateRegionsBytes (.insertion _) [(0x1000, 0x2000, .usable),
      (0x1000, 0x1001, .usable)] (List.replicate 2 .empty)).1 = .error .overlap := by
  decide

end LionOS.Boot
