import LionOS.User.Image

/-!
# Pages below the user stack

`user_copy_in` accepts every pointer between the base of the region and the top of
the stack. The loader maps a set of pages in that range. The two agree exactly
when the segments leave no gap below the stack.
-/

namespace LionOS.User

open Lib Paging Frames

variable {σ : Type} [FrameSource σ]

/-- The addresses the loader maps for a segment. -/
def Segment.targets (base : Nat) (g : Segment) : List Nat :=
  (List.range g.pages).map fun i => base + g.vaddr + i * 4096

/-- The end of the highest segment, or `m` if that is higher. -/
def imageEnd (m : Nat) (segs : List Segment) : Nat :=
  segs.foldl (fun m g => max m (g.vaddr + g.memsz)) m

theorem lt_imageEnd {x m : Nat} {segs : List Segment} :
    x < imageEnd m segs ↔ x < m ∨ ∃ g ∈ segs, x < g.vaddr + g.memsz := by
  induction segs generalizing m with
  | nil => simp [imageEnd]
  | cons g segs ih =>
    have hstep : imageEnd m (g :: segs) = imageEnd (max m (g.vaddr + g.memsz)) segs := rfl
    rw [hstep, ih, lt_max_iff]
    simp only [List.mem_cons, exists_eq_or_imp, or_assoc]

private theorem loadPage_mapped {base i : Nat} {elf : Slice} {g : Segment} {l l' : Loader σ}
    (h : loadPage base elf g l i = .ok l') :
    l'.mapped = l.mapped ++ [base + g.vaddr + i * 4096] ∧ l'.maxEnd = l.maxEnd := by
  obtain ⟨vaddr, hv, h⟩ := bind_eq_ok.mp h
  obtain ⟨s, -, h⟩ := bind_eq_ok.mp h
  obtain ⟨fileStart, -, h⟩ := bind_eq_ok.mp h
  obtain ⟨s', -, h⟩ := bind_eq_ok.mp h
  obtain ⟨-, rfl⟩ := checked_eq_ok hv
  obtain rfl := Except.ok.inj h
  exact ⟨rfl, rfl⟩

private theorem loadPages_mapped {base n : Nat} {elf : Slice} {g : Segment} {l l' : Loader σ}
    (h : loadPages base elf g l n = .ok l') :
    l'.mapped = l.mapped ++ (List.range n).map (fun i => base + g.vaddr + i * 4096) ∧
      l'.maxEnd = l.maxEnd := by
  induction n generalizing l' with
  | zero =>
    obtain rfl := Except.ok.inj h
    simp
  | succ n ih =>
    obtain ⟨l₁, h₁, h⟩ := bind_eq_ok.mp h
    obtain ⟨hm, he⟩ := loadPage_mapped h
    obtain ⟨hm₁, he₁⟩ := ih h₁
    constructor
    · rw [hm, hm₁, List.range_succ, List.map_append, List.append_assoc]
      rfl
    · rw [he, he₁]

private theorem loadSegment_mapped {base : Nat} {elf : Slice} {g : Segment} {l l' : Loader σ}
    (h : loadSegment base elf l g = .ok l') :
    l'.mapped = l.mapped ++ g.targets base ∧ l'.maxEnd = max l.maxEnd (g.vaddr + g.memsz) := by
  obtain ⟨-, -, h⟩ := bind_eq_ok.mp h
  obtain ⟨l₁, h₁, h⟩ := bind_eq_ok.mp h
  obtain ⟨stop, hs, h⟩ := bind_eq_ok.mp h
  obtain ⟨-, rfl⟩ := checked_eq_ok hs
  obtain rfl := Except.ok.inj h
  obtain ⟨hm, he⟩ := loadPages_mapped h₁
  exact ⟨hm, by rw [he]⟩

/-- The loop maps the pages of all segments and finds the end of the highest. -/
theorem loadLoop_mapped {base : Nat} {elf : Slice} {segs : List Segment} {l l' : Loader σ}
    (h : loadLoop base elf l segs = .ok l') :
    l'.mapped = l.mapped ++ segs.flatMap (Segment.targets base) ∧
      l'.maxEnd = imageEnd l.maxEnd segs := by
  induction segs generalizing l with
  | nil =>
    obtain rfl := Except.ok.inj h
    simp [imageEnd]
  | cons g segs ih =>
    obtain ⟨l₁, h₁, h⟩ := bind_eq_ok.mp h
    obtain ⟨hm₁, he₁⟩ := loadSegment_mapped h₁
    obtain ⟨hm, he⟩ := ih h
    constructor
    · rw [hm, hm₁, List.flatMap_cons, List.append_assoc]
    · rw [he, he₁]
      rfl

/-- Clearing the page offset rounds down to a page. -/
theorem and_pageMask {x : Nat} (h : x < 2 ^ 64) : x &&& pageMask = x / 4096 * 4096 := by
  have hfield : x &&& pageMask = x / 2 ^ 12 % 2 ^ 52 * 2 ^ 12 := and_field x 12 52
  rw [hfield]
  omega

/-- The number of pages below the stack. -/
def stackIndex (segs : List Segment) : Nat := (imageEnd 0 segs + 4095) / 4096

/-- The pages below the stack are those that start below the end of a segment. -/
theorem lt_stackIndex {p : Nat} {segs : List Segment} :
    p < stackIndex segs ↔ ∃ g ∈ segs, p * 4096 < g.vaddr + g.memsz := by
  have hlt := @lt_imageEnd (p * 4096) 0 segs
  simp only [Nat.not_lt_zero, false_or] at hlt
  rw [← hlt, stackIndex]
  omega

/-- The stack goes to the page above the image. -/
theorem mapStack_eq {base : Nat} {segs : List Segment} {l : Loader σ} {s : Machine σ}
    (hend : l.maxEnd = imageEnd 0 segs) (hfit : base + stackIndex segs * 4096 + 4096 < 2 ^ 64)
    (hnew : mapNew true (base + stackIndex segs * 4096) l.machine = .ok s) :
    mapStack base l = .ok ⟨s, l.mapped ++ [base + stackIndex segs * 4096],
      ⟨base, base + stackIndex segs * 4096 + 4096⟩⟩ := by
  have hindex : imageEnd 0 segs + 0xFFF < 2 ^ 64 := by
    unfold stackIndex at hfit
    omega
  have hmask : imageEnd 0 segs + 0xFFF &&& pageMask = stackIndex segs * 4096 := by
    rw [and_pageMask hindex]
    rfl
  unfold mapStack
  rw [hend, checked_of_lt hindex]
  apply bind_eq_ok.mpr
  refine ⟨_, rfl, bind_eq_ok.mpr ⟨base + stackIndex segs * 4096, ?_, ?_⟩⟩
  · rw [hmask]
    exact checked_of_lt (by omega)
  · exact bind_eq_ok.mpr ⟨s, hnew, bind_eq_ok.mpr ⟨_, checked_of_lt hfit, rfl⟩⟩

/-- What a successful load has mapped and recorded. -/
theorem loadProgram_mapped {base : Nat} {elf : Slice} {segs : List Segment} {s : Machine σ}
    {l : Loaded σ} (h : loadProgram base elf segs s = .ok l) :
    l.mapped = segs.flatMap (Segment.targets base) ++ [base + stackIndex segs * 4096] ∧
      l.range = ⟨base, base + stackIndex segs * 4096 + 4096⟩ ∧
      base + stackIndex segs * 4096 + 4096 < 2 ^ 64 := by
  obtain ⟨l₁, h₁, h⟩ := bind_eq_ok.mp h
  obtain ⟨hm, he⟩ := loadLoop_mapped h₁
  obtain ⟨stop, hs, h⟩ := bind_eq_ok.mp h
  obtain ⟨page, hp, h⟩ := bind_eq_ok.mp h
  obtain ⟨s', -, h⟩ := bind_eq_ok.mp h
  obtain ⟨top, ht, h⟩ := bind_eq_ok.mp h
  obtain ⟨hstop, rfl⟩ := checked_eq_ok hs
  obtain ⟨-, rfl⟩ := checked_eq_ok hp
  obtain ⟨htop, rfl⟩ := checked_eq_ok ht
  obtain rfl := Except.ok.inj h
  have hmask : l₁.maxEnd + 0xFFF &&& pageMask = stackIndex segs * 4096 := by
    rw [and_pageMask hstop, he]
    rfl
  rw [hmask] at htop ⊢
  rw [hm]
  exact ⟨rfl, rfl, htop⟩

/-- What `bring_up` has done when it records the user range. -/
theorem bringUp_eq_ok {cpu : Bool} {elf : Slice} {s : Machine σ} {l : Loaded σ}
    (h : bringUp cpu elf s = .ok (some l)) :
    ∃ (i : Fin 512) (n : Nat) (segs : List Segment), s.findFreeTopIndex = some i ∧ i.val < 256 ∧
      loadSegments elf [] = .ok (n, segs) ∧ loadProgram (i.val * 2 ^ 39) elf segs s = .ok l := by
  unfold bringUp at h
  split at h
  · exact absurd h (by simp)
  split at h
  · exact absurd h (by simp)
  next i hi =>
  split at h
  · exact absurd h (by simp)
  next hlt =>
  split at h
  · exact absurd h (by simp)
  obtain ⟨-, -, h⟩ := bind_eq_ok.mp h
  obtain ⟨⟨n, segs⟩, hsegs, h⟩ := bind_eq_ok.mp h
  dsimp only at h
  split at h
  · exact absurd h (by simp)
  obtain ⟨l', hl, h⟩ := bind_eq_ok.mp h
  obtain rfl := Option.some.inj (Except.ok.inj h)
  rw [Nat.shiftLeft_eq] at hl
  exact ⟨i, n, segs, hi, by omega, hsegs, hl⟩

/-- A load that goes through makes `bring_up` go through. -/
theorem bringUp_of_loadProgram {elf : Slice} {s : Machine σ} {i : Fin 512} {n entryOff : Nat}
    {segs : List Segment} {l : Loaded σ} (hfree : s.findFreeTopIndex = some i)
    (hlt : i.val < 256) (hentry : entryPoint elf = some entryOff) (hoff : entryOff < 2 ^ 63)
    (hsegs : loadSegments elf [] = .ok (n, segs)) (hne : segs ≠ [])
    (hl : loadProgram (i.val * 2 ^ 39) elf segs s = .ok l) :
    bringUp true elf s = .ok (some l) := by
  have hhigh : ¬ 256 ≤ i.val := by omega
  have hempty : segs.isEmpty = false := by simp [hne]
  have hfit : i.val <<< 39 + entryOff < 2 ^ 64 := by
    rw [Nat.shiftLeft_eq]
    omega
  rw [← Nat.shiftLeft_eq] at hl
  simp [bringUp, hfree, hhigh, hentry, checked_of_lt hfit, hsegs, hempty, hl, Bind.bind,
    Except.bind]

/-! ## The range and the pages -/

/-- Every byte that `user_copy_in` goes on to copy, for a pointer and a length a system
call can pass, lies in a page mapped for the user. -/
def CopiesMapped (l : Loaded σ) : Prop :=
  ∀ src n, src < 2 ^ 64 → n ≤ 64 → userCopyIn l.range l.machine src n ≠ .ok none →
    ∀ a, src ≤ a → a < src + n → ∃ v ∈ l.mapped, a / 4096 = v / 4096

/-- The segments leave no gap: every page up to the end of the highest one is mapped for
some segment. -/
def Gapless (segs : List Segment) : Prop :=
  ∀ p, (∃ g ∈ segs, p * 4096 < g.vaddr + g.memsz) → ∃ g ∈ segs, g.Maps p

omit [FrameSource σ] in
theorem userCopyIn_ne_none {r : UserRange} {s : Machine σ} {src n : Nat} :
    userCopyIn r s src n ≠ .ok none ↔ inUserRange r src n = true := by
  unfold userCopyIn
  cases inUserRange r src n with
  | false => simp
  | true => cases s.copyFrom src n <;> simp

theorem inUserRange_iff {r : UserRange} {src n : Nat} (hstart : r.start ≠ 0)
    (hstop : r.stop < 2 ^ 64 - 1) :
    inUserRange r src n = true ↔ r.start ≤ src ∧ src + n ≤ r.stop := by
  simp only [inUserRange, Bool.and_eq_true, Bool.not_eq_true', Bool.or_eq_false_iff,
    beq_eq_false_iff_ne, ne_eq, hstart, not_false_eq_true, true_and, decide_eq_false_iff_not,
    decide_eq_true_eq]
  omega

/-- The pointers and lengths that pass the range check of a loaded program. -/
theorem inUserRange_loaded {base src n : Nat} {elf : Slice} {segs : List Segment} {s : Machine σ}
    {l : Loaded σ} (hpos : 0 < base) (hal : base % 4096 = 0)
    (h : loadProgram base elf segs s = .ok l) :
    inUserRange l.range src n = true ↔
      base ≤ src ∧ src + n ≤ base + stackIndex segs * 4096 + 4096 := by
  obtain ⟨-, hrange, htop⟩ := loadProgram_mapped h
  rw [hrange]
  apply inUserRange_iff
  · change base ≠ 0
    omega
  · change base + stackIndex segs * 4096 + 4096 < 2 ^ 64 - 1
    omega

/-- The loader maps the page of an address for a segment. -/
theorem Segment.mem_targets_page {base p : Nat} {g : Segment} (hbase : base % 4096 = 0) :
    (∃ v ∈ g.targets base, base / 4096 + p = v / 4096) ↔ g.Maps p := by
  rw [Segment.maps_iff]
  simp only [Segment.targets, List.mem_map, List.mem_range, exists_exists_and_eq_and,
    Segment.pageAt]
  constructor
  · rintro ⟨i, hi, hp⟩
    exact ⟨i, hi, by omega⟩
  · rintro ⟨i, hi, hp⟩
    exact ⟨i, hi, by omega⟩

/-- The pages a loaded program has: those of its segments, and the stack's. -/
theorem mem_mapped_page {base p : Nat} {elf : Slice} {segs : List Segment} {s : Machine σ}
    {l : Loaded σ} (hbase : base % 4096 = 0) (h : loadProgram base elf segs s = .ok l) :
    (∃ v ∈ l.mapped, base / 4096 + p = v / 4096) ↔
      p = stackIndex segs ∨ ∃ g ∈ segs, g.Maps p := by
  rw [(loadProgram_mapped h).1]
  constructor
  · rintro ⟨v, hv, hp⟩
    rcases List.mem_append.mp hv with hv | hv
    · obtain ⟨g, hg, hv⟩ := List.mem_flatMap.mp hv
      exact Or.inr ⟨g, hg, (Segment.mem_targets_page hbase).mp ⟨v, hv, hp⟩⟩
    · obtain rfl := List.mem_singleton.mp hv
      left
      omega
  · rintro (rfl | ⟨g, hg, hp⟩)
    · refine ⟨_, List.mem_append_right _ (List.mem_singleton_self _), ?_⟩
      omega
    · obtain ⟨v, hv, hp⟩ := (Segment.mem_targets_page hbase).mpr hp
      exact ⟨v, List.mem_append_left _ (List.mem_flatMap.mpr ⟨g, hg, hv⟩), hp⟩

/-- **The range check is as good as the image is gapless.** After a successful load at a
base index from 1 to 255, every byte `user_copy_in` copies lies in a page mapped for
the user if and only if the segments leave no page below the stack unmapped. -/
theorem copiesMapped_iff_gapless {cpu : Bool} {elf : Slice} {s : Machine σ} {i : Fin 512}
    {n : Nat} {segs : List Segment} {l : Loaded σ} (hi : s.findFreeTopIndex = some i)
    (hpos : 1 ≤ i.val) (hsegs : loadSegments elf [] = .ok (n, segs))
    (h : bringUp cpu elf s = .ok (some l)) : CopiesMapped l ↔ Gapless segs := by
  obtain ⟨i', n', segs', hi', -, hsegs', hl⟩ := bringUp_eq_ok h
  obtain rfl := Option.some.inj (hi.symm.trans hi')
  obtain ⟨-, rfl⟩ := Prod.mk.inj (Except.ok.inj (hsegs.symm.trans hsegs'))
  obtain ⟨base, hbase⟩ : ∃ base, base = i.val * 2 ^ 39 := ⟨_, rfl⟩
  rw [← hbase] at hl
  have hal : base % 4096 = 0 := by omega
  have hmem := fun p => mem_mapped_page (p := p) hal hl
  have hcheck := fun src n => @inUserRange_loaded σ _ base src n _ _ _ _ (by omega) hal hl
  have htop := (loadProgram_mapped hl).2.2
  constructor
  · intro hc p hp
    rw [← lt_stackIndex] at hp
    have hpass : userCopyIn l.range l.machine (base + p * 4096) 1 ≠ .ok none := by
      rw [userCopyIn_ne_none, hcheck]
      omega
    obtain ⟨v, hv, hpage⟩ := hc (base + p * 4096) 1 (by omega) (by omega) hpass
      (base + p * 4096) (by omega) (by omega)
    rcases (hmem p).mp ⟨v, hv, by omega⟩ with rfl | hg
    · omega
    · exact hg
  · intro hg src n _ _ hpass a ha ha'
    rw [userCopyIn_ne_none, hcheck] at hpass
    have hpage : base / 4096 + (a - base) / 4096 = a / 4096 := by omega
    rw [← hpage]
    apply (hmem _).mpr
    by_cases hp : (a - base) / 4096 < stackIndex segs
    · exact Or.inr (hg _ (lt_stackIndex.mp hp))
    · left
      omega

/-! ## A load that goes through -/

section

variable {s : Machine σ} {i : Fin 512} {elf : Slice} {n entryOff : Nat} {segs : List Segment}
  {B : AddressSpace UInt8} (htree : s.Tree)
  (hsupply : Supplies s.frames fun f => f < 2 ^ 40 ∧ ¬ s.Reachable (f * 4096))
  (hfree : s.findFreeTopIndex = some i) (hlt : i.val < 256) (hd : Describes elf segs)
  (hin : ∀ g ∈ segs, g.vaddr + g.memsz + 4096 ≤ 2 ^ 39)
  (hrun : AddressSpace.empty.run 4096 (steps elf segs) = some B)
  (hlasts : Lasts (4 + 4 * pageCount segs) s.frames)

omit [FrameSource σ] in
include hin in
/-- There is room for the stack page in the region. -/
theorem stackIndex_le : stackIndex segs * 4096 + 4096 ≤ 2 ^ 39 := by
  have hle : imageEnd 0 segs ≤ 2 ^ 39 - 4096 := by
    by_contra hgt
    rcases lt_imageEnd.mp (Nat.lt_of_not_le hgt) with h0 | ⟨g, hg, hg'⟩
    · omega
    · have := hin g hg
      omega
  unfold stackIndex
  omega

include htree hsupply hfree hlt hd hin hrun hlasts

/-- A program whose steps go through is loaded, and its stack is mapped above it. -/
theorem loadProgram_shows :
    ∃ l frame, loadProgram (i.val * 2 ^ 39) elf segs s = .ok l ∧
      Shows (i.val * 2 ^ 39) InRegion s.mem (fun f => ∃ n, f ∈ handed n s.frames) frame l.machine
        (B.mapPage 4096 (stackIndex segs)) := by
  have hb : IsWindow (i.val * 2 ^ 39) InRegion := isWindow_of_lt hlt
  have hframes : EnoughFrames (i.val * 2 ^ 39) elf segs s := by
    intro m _
    exact (loadLoop_supplied (l := ⟨s.setMem m, [], 0⟩) hlasts).1
  have hin' : ∀ g ∈ segs, g.Within InRegion := fun g hg =>
    Segment.within_of_le ((Nat.le_add_right ..).trans (hin g hg))
  rcases loadLoop_outcome htree hsupply hframes hd hb hin' (vacant_of_free hfree) (m := s.mem)
    fun _ _ => rfl with ⟨-, hnone⟩ | ⟨l₁, frame, B', hok, hB', hshow⟩
  · exact absurd (hrun.symm.trans hnone) (by simp)
  obtain rfl := Option.some.inj (hrun.symm.trans hB')
  have hok' : loadLoop (i.val * 2 ^ 39) elf ⟨s, [], 0⟩ segs = .ok l₁ := hok
  have hleft : Lasts (0 + 4) l₁.machine.frames :=
    (loadLoop_supplied (l := ⟨s, [], 0⟩) hlasts).2 l₁ hok'
  have hroom := stackIndex_le hin
  obtain ⟨s', hnew, -⟩ := mapNew_lasts true (i.val * 2 ^ 39 + stackIndex segs * 4096) hleft
  rcases hshow.mapNew hb (v := stackIndex segs * 4096) (by omega) true with
    hdry | ⟨frame', s'', hnew', hshow'⟩
  · exact absurd (hnew.symm.trans hdry) (by simp)
  rw [Nat.mul_div_cancel _ (by omega)] at hshow'
  refine ⟨⟨s'', l₁.mapped ++ [i.val * 2 ^ 39 + stackIndex segs * 4096],
    ⟨i.val * 2 ^ 39, i.val * 2 ^ 39 + stackIndex segs * 4096 + 0x1000⟩⟩, frame', ?_, hshow'⟩
  exact bind_eq_ok.mpr ⟨l₁, hok', mapStack_eq (loadLoop_mapped hok').2 (by omega) hnew'⟩

/-- So `bring_up` goes through for a file with an entry point and these segments. -/
theorem bringUp_shows (hentry : entryPoint elf = some entryOff) (hoff : entryOff < 2 ^ 63)
    (hsegs : loadSegments elf [] = .ok (n, segs)) (hne : segs ≠ []) :
    ∃ l frame, bringUp true elf s = .ok (some l) ∧
      loadProgram (i.val * 2 ^ 39) elf segs s = .ok l ∧
      Shows (i.val * 2 ^ 39) InRegion s.mem (fun f => ∃ n, f ∈ handed n s.frames) frame l.machine
        (B.mapPage 4096 (stackIndex segs)) := by
  obtain ⟨l, frame, hl, hshow⟩ :=
    loadProgram_shows htree hsupply hfree hlt hd hin hrun hlasts
  exact ⟨l, frame, bringUp_of_loadProgram hfree hlt hentry hoff hsegs hne hl, hl, hshow⟩

/-- A gapless program's memory is copied without a fault. -/
theorem userCopyIn_ne_pageFault {l : Loaded σ} (hgap : Gapless segs) (hpos : 1 ≤ i.val)
    (hl : loadProgram (i.val * 2 ^ 39) elf segs s = .ok l) (src n : Nat) :
    userCopyIn l.range l.machine src n ≠ .error .pageFault := by
  obtain ⟨l', frame, hl', hshow⟩ :=
    loadProgram_shows htree hsupply hfree hlt hd hin hrun hlasts
  obtain rfl := Except.ok.inj (hl.symm.trans hl')
  have hroom := stackIndex_le hin
  unfold userCopyIn
  cases hpass : inUserRange l.range src n with
  | false => simp
  | true =>
    obtain ⟨hlo, hhi⟩ := (inUserRange_loaded (by omega) (by omega) hl).mp hpass
    obtain ⟨v, rfl⟩ := Nat.exists_eq_add_of_le hlo
    have hmapped : ∀ k < n, B.mapPage 4096 (stackIndex segs) (v + k) ≠ .unmapped := by
      intro k hk
      rw [AddressSpace.mapPage_unmapped, AddressSpace.run_unmapped_iff hrun, steps_page]
      by_cases hp : (v + k) / 4096 < stackIndex segs
      · exact Or.inr (Or.inr (hgap _ (lt_stackIndex.mp hp)))
      · left
        omega
    obtain ⟨bytes, hbytes⟩ := hshow.copyFrom (isWindow_of_lt hlt) (fun k hk => by omega) hmapped
    rw [if_pos rfl, hbytes]
    simp

end

theorem eq_ok_of_toOption {ε α : Type} {r : Except ε α} {x : α} (h : r.toOption = some x) :
    r = .ok x := by
  cases r with
  | error e => simp [Except.toOption] at h
  | ok y => simpa [Except.toOption] using h

/-- What `bring_up` leaves of a text segment in a page of its own. -/
theorem bringUp_text {vaddr n entryOff : Nat} (hal : vaddr % 4096 = 0)
    (hin : vaddr + 2 + 4096 ≤ 2 ^ 39) (hentry : entryPoint (textElf vaddr 2) = some entryOff)
    (hoff : entryOff < 2 ^ 63)
    (hsegs : (loadSegments (textElf vaddr 2) []).toOption = some (n, [textSegment vaddr 2])) :
    ∃ l frame B, bringUp true (textElf vaddr 2) bootMachine = .ok (some l) ∧
      loadProgram 0x8000000000 (textElf vaddr 2) [textSegment vaddr 2] bootMachine = .ok l ∧
      AddressSpace.empty.run 4096 (steps (textElf vaddr 2) [textSegment vaddr 2]) = some B ∧
      Shows 0x8000000000 InRegion bootMachine.mem (fun f => ∃ n, f ∈ handed n bootMachine.frames)
        frame l.machine (B.mapPage 4096 (stackIndex [textSegment vaddr 2])) := by
  have hin' : ∀ g ∈ [textSegment vaddr 2], g.vaddr + g.memsz + 4096 ≤ 2 ^ 39 := by
    intro g hg
    obtain rfl := List.mem_singleton.mp hg
    exact hin
  obtain ⟨B, hrun⟩ : ∃ B, AddressSpace.empty.run 4096
      (steps (textElf vaddr 2) [textSegment vaddr 2]) = some B := (textSegment_loadable hal).run
  have hlasts : Lasts (4 + 4 * pageCount [textSegment vaddr 2]) bootMachine.frames :=
    bootMachine_lasts (by simp [pageCount, Segment.pages, textSegment])
  obtain ⟨l, frame, hup, hl, hshow⟩ := bringUp_shows bootMachine_tree bootMachine_supplies
    bootMachine_free (by decide) (textSegment_describes le_rfl) hin' hrun hlasts hentry hoff
    (eq_ok_of_toOption hsegs) (by simp)
  exact ⟨l, frame, B, hup, hl, hrun, hshow⟩

/-- A program linked at the base of the region is gapless. -/
theorem copiesMapped_of_linked_at_zero :
    ∃ l, bringUp true (textElf 0 2) bootMachine = .ok (some l) ∧ CopiesMapped l := by
  have hsegs : (loadSegments (textElf 0 2) []).toOption = some (1, [textSegment 0 2]) := by
    decide +kernel
  have hentry : entryPoint (textElf 0 2) = some 0 := by decide +kernel
  obtain ⟨l, -, -, hup, -⟩ := bringUp_text (by decide) (by decide) hentry (by decide) hsegs
  refine ⟨l, hup, ?_⟩
  apply (copiesMapped_iff_gapless bootMachine_free (by decide) (eq_ok_of_toOption hsegs) hup).mpr
  intro p hp
  simp only [List.mem_singleton, exists_eq_left, textSegment] at hp ⊢
  obtain rfl : p = 0 := by omega
  decide

/-- A program linked at 0x1000 leaves the page at the base unmapped: the range check
lets a pointer to it pass, and the copy faults in the kernel. -/
theorem copy_faults_below_text :
    ∃ l, bringUp true (textElf 0x1000 2) bootMachine = .ok (some l) ∧
      userCopyIn l.range l.machine 0x8000000000 1 = .error .pageFault ∧ ¬ CopiesMapped l := by
  have hsegs : (loadSegments (textElf 0x1000 2) []).toOption =
      some (1, [textSegment 0x1000 2]) := by
    decide +kernel
  have hentry : entryPoint (textElf 0x1000 2) = some 0 := by decide
  have hindex : stackIndex [textSegment 0x1000 2] = 2 := by decide
  obtain ⟨l, frame, B, hup, hl, hrun, hshow⟩ :=
    bringUp_text (by decide) (by decide) hentry (by decide) hsegs
  rw [hindex] at hshow
  have hcell : B.mapPage 4096 2 0 = .unmapped := by
    by_contra hmapped
    rw [← ne_eq, AddressSpace.mapPage_unmapped, AddressSpace.run_unmapped_iff hrun,
      steps_page] at hmapped
    rcases hmapped with hp | hempty | ⟨g, hg, hp⟩
    · exact absurd hp (by decide)
    · exact hempty rfl
    · rw [List.mem_singleton.mp hg] at hp
      exact absurd hp (by decide)
  have hread := hshow.loadByte (isWindow_of_lt (i := 1) (by decide)) (v := 0) (by decide)
  rw [hcell] at hread
  have hfault : userCopyIn l.range l.machine 0x8000000000 1 = .error .pageFault := by
    have hpass := (inUserRange_loaded (by decide) (by decide) hl).mpr
      (show 0x8000000000 ≤ 0x8000000000 ∧ 0x8000000000 + 1 ≤ _ by rw [hindex]; decide)
    have hcopy : l.machine.copyFrom 0x8000000000 1 = none := by
      rw [Machine.copyFrom, Machine.copyFrom, Option.bind_some]
      exact congrArg (Option.map _) hread
    rw [userCopyIn, hpass, if_pos rfl, hcopy]
  refine ⟨l, hup, hfault, fun hc => ?_⟩
  have hpass : userCopyIn l.range l.machine 0x8000000000 1 ≠ .ok none := by
    rw [hfault]
    simp
  obtain ⟨v, hv, hpage⟩ := hc 0x8000000000 1 (by decide) (by decide) hpass 0x8000000000 le_rfl
    (by decide)
  rcases (mem_mapped_page (p := 0) (by decide) hl).mp ⟨v, hv, hpage⟩ with hp | ⟨g, hg, hp⟩
  · rw [hindex] at hp
    exact absurd hp (by decide)
  · rw [List.mem_singleton.mp hg] at hp
    exact absurd hp (by decide)

end LionOS.User
