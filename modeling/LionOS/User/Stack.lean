import LionOS.User.UserRange

/-!
# The user stack above the program

The stack page starts at the end of the highest segment, rounded up. A segment's pages are
counted from its size alone and mapped from its unaligned start, so its last page may end
below the end of the segment, but never reaches above it. The tables see 48 bits of an
address: a page that lies a multiple of 2^48 bytes below the stack has the stack's entry,
and loses it to the stack.
-/

namespace LionOS.User

open Lib Paging Frames

/-- A page of a segment starts below the segment's end. -/
theorem Segment.pageAt_lt_stackIndex {segs : List Segment} {g : Segment} (hg : g ∈ segs) {i : Nat}
    (hi : i < g.pages) : g.pageAt i < stackIndex segs := by
  rw [lt_stackIndex]
  refine ⟨g, hg, ?_⟩
  rw [Segment.pageAt_eq]
  unfold Segment.pages at hi
  omega

/-- The pages mapped for the program lie above the base and below the stack. -/
theorem page_lt_of_mem_targets {base : Nat} {segs : List Segment} {v : Nat}
    (hbase : base % 4096 = 0) (hv : v ∈ segs.flatMap (Segment.targets base)) :
    base ≤ v / 4096 * 4096 ∧ v / 4096 * 4096 + 4096 ≤ base + stackIndex segs * 4096 := by
  obtain ⟨g, hg, hv⟩ := List.mem_flatMap.mp hv
  simp only [Segment.targets, List.mem_map, List.mem_range] at hv
  obtain ⟨i, hi, rfl⟩ := hv
  have hlt := Segment.pageAt_lt_stackIndex hg hi
  unfold Segment.pageAt at hlt
  omega

/-- The address of the stack page, as `bring_up` computes it. -/
def stackPage (base : Nat) (segs : List Segment) : Nat :=
  base + ((imageEnd 0 segs + 0xFFF) &&& pageMask)

theorem stackPage_eq {base : Nat} {segs : List Segment} (hsum : imageEnd 0 segs + 0xFFF < 2 ^ 64) :
    stackPage base segs = base + stackIndex segs * 4096 := by
  rw [stackPage, and_pageMask hsum]
  rfl

/-- The stack page is none of the program's pages in the page tables, and the range from the
base to the top of the stack contains them all. -/
structure StackApart (base : Nat) (segs : List Segment) : Prop where
  apart : ∀ v ∈ segs.flatMap (Segment.targets base), path v ≠ path (stackPage base segs)
  covered : ∀ v ∈ segs.flatMap (Segment.targets base) ++ [stackPage base segs],
    base ≤ v / 4096 * 4096 ∧ v / 4096 * 4096 + 4096 ≤ stackPage base segs + 0x1000

/-- No page of a segment lies a multiple of 2^36 pages below the end of the highest one: from
its first page, the next such page comes after its last. -/
def ClearOfStack (segs : List Segment) : Prop :=
  ∀ g ∈ segs, g.pages ≤ (stackIndex segs - g.vaddr / 4096) % 2 ^ 36

instance (segs : List Segment) : Decidable (ClearOfStack segs) := by
  unfold ClearOfStack
  infer_instance

/-- The tables tell pages apart by the low 36 bits of their numbers. -/
theorem path_eq_iff {v w : Nat} : path v = path w ↔ v / 4096 % 2 ^ 36 = w / 4096 % 2 ^ 36 := by
  simp only [path, index4, index3, index2, index1, List.cons.injEq, Fin.ext_iff, indexAt_val,
    and_true]
  omega

section

variable {base : Nat} {segs : List Segment} (hbase : base % 4096 = 0)
  (hsum : imageEnd 0 segs + 0xFFF < 2 ^ 64)

include hbase hsum

/-- The entry of a program page is the stack's if their numbers differ by a multiple of
2^36. -/
private theorem path_eq_stack_iff {g : Segment} (hg : g ∈ segs) {i : Nat} (hi : i < g.pages) :
    path (base + g.vaddr + i * 4096) = path (stackPage base segs) ↔
      (stackIndex segs - g.vaddr / 4096) % 2 ^ 36 = i % 2 ^ 36 := by
  have hlt := Segment.pageAt_lt_stackIndex hg hi
  rw [Segment.pageAt_eq] at hlt
  rw [path_eq_iff, stackPage_eq hsum]
  omega

/-- No page of the program has the stack's entry exactly when the segments are clear of it. -/
theorem apart_iff_clearOfStack :
    (∀ v ∈ segs.flatMap (Segment.targets base), path v ≠ path (stackPage base segs)) ↔
      ClearOfStack segs := by
  constructor
  · intro h g hg
    by_contra hlt
    -- The first page of the segment with the right low bits.
    obtain ⟨i, hi⟩ : ∃ i, i = (stackIndex segs - g.vaddr / 4096) % 2 ^ 36 := ⟨_, rfl⟩
    have hpage : i < g.pages := by omega
    refine h (base + g.vaddr + i * 4096) ?_ ((path_eq_stack_iff hbase hsum hg hpage).mpr ?_)
    · exact List.mem_flatMap.mpr ⟨g, hg, List.mem_map.mpr ⟨i, List.mem_range.mpr hpage, rfl⟩⟩
    · omega
  · intro h v hv hpath
    obtain ⟨g, hg, hv⟩ := List.mem_flatMap.mp hv
    obtain ⟨i, hi, rfl⟩ := List.mem_map.mp hv
    have hpage := List.mem_range.mp hi
    have hmod := (path_eq_stack_iff hbase hsum hg hpage).mp hpath
    have hclear := h g hg
    omega

/-- Every page up to the stack lies in the recorded range. -/
private theorem covered_of_sum :
    ∀ v ∈ segs.flatMap (Segment.targets base) ++ [stackPage base segs],
      base ≤ v / 4096 * 4096 ∧ v / 4096 * 4096 + 4096 ≤ stackPage base segs + 0x1000 := by
  have heq : stackPage base segs = base + stackIndex segs * 4096 := stackPage_eq hsum
  intro v hv
  rcases List.mem_append.mp hv with hv | hv
  · have hpage := page_lt_of_mem_targets hbase hv
    omega
  · rw [List.mem_singleton.mp hv]
    omega

end

variable {σ : Type} [FrameSource σ]

/-- **The user stack is apart from the programs that are clear of it.** For every file and
every region, if the end of the highest segment can be rounded up in a machine word, the
recorded range contains all pages of the load loop and the stack page, and the stack page
has an entry of its own in the page tables if and only if no page of a segment lies a
multiple of 2^48 bytes below it. These are the pages and the range of every successful
`bring_up`, on any machine. -/
theorem stackApart_iff_clear {elf : Slice} {n : Nat} {segs : List Segment} (i : Fin 512)
    (hsegs : loadSegments elf [] = .ok (n, segs)) (hsum : imageEnd 0 segs + 0xFFF < 2 ^ 64) :
    (StackApart (i.val * 2 ^ 39) segs ↔ ClearOfStack segs) ∧
      ∀ (cpu : Bool) (s : Machine σ) (l : Loaded σ), s.findFreeTopIndex = some i →
        bringUp cpu elf s = .ok (some l) →
        l.mapped = segs.flatMap (Segment.targets (i.val * 2 ^ 39)) ++
            [stackPage (i.val * 2 ^ 39) segs] ∧
          l.range = ⟨i.val * 2 ^ 39, stackPage (i.val * 2 ^ 39) segs + 0x1000⟩ := by
  have hal : i.val * 2 ^ 39 % 4096 = 0 := by omega
  refine ⟨⟨fun h => (apart_iff_clearOfStack hal hsum).mp h.apart, fun h =>
    ⟨(apart_iff_clearOfStack hal hsum).mpr h, covered_of_sum hal hsum⟩⟩, fun cpu s l hi h => ?_⟩
  obtain ⟨i', n', segs', hi', -, hsegs', hload⟩ := bringUp_eq_ok h
  obtain rfl : i = i' := Option.some.inj (hi.symm.trans hi')
  obtain rfl : segs = segs' := (Prod.mk.inj (Except.ok.inj (hsegs.symm.trans hsegs'))).2
  obtain ⟨hmapped, hrange, -⟩ := loadProgram_mapped hload
  rw [stackPage_eq hsum]
  exact ⟨hmapped, hrange⟩

/-- The text segment at the base of the region: its page and the stack's. -/
theorem stackApart_text :
    StackApart (1 * 2 ^ 39) [textSegment 0 2] ∧
      ∃ l, bringUp true (textElf 0 2) bootMachine = .ok (some l) ∧
        l.mapped = [0x8000000000, 0x8000001000] ∧ l.range = ⟨0x8000000000, 0x8000002000⟩ := by
  have hload : (loadSegments (textElf 0 2) []).toOption = some (1, [textSegment 0 2]) := by
    decide +kernel
  have hsegs := eq_ok_of_toOption hload
  have hentry : entryPoint (textElf 0 2) = some 0 := by decide
  obtain ⟨hapart, hrun⟩ := @stackApart_iff_clear FrameAllocator _ _ _ _ 1 hsegs (by decide)
  obtain ⟨l, -, -, hup, -⟩ := bringUp_text (by decide) (by decide) hentry (by decide) hload
  obtain ⟨hmapped, hrange⟩ := hrun true bootMachine l bootMachine_free hup
  exact ⟨hapart.mpr (by decide), l, hup, hmapped, hrange⟩

/-- An ELF file with the text segment at 0x1000 and a page of zeros at 2^48. -/
def overlaidElf : Slice where
  mem := [(0, 4, 0x464C457F), (4, 1, 2), (5, 1, 1), (32, 8, 128), (54, 2, 56), (56, 2, 2),
    (120, 2, 0xC390), (128, 4, 1), (132, 4, 5), (136, 8, 120), (144, 8, 0x1000), (160, 8, 2),
    (168, 8, 2), (184, 4, 1), (188, 4, 6), (200, 8, 2 ^ 48), (224, 8, 0x1000)].foldl
      (fun m f => writeLE m f.1 f.2.1 f.2.2) fun _ => 0
  len := 240
  len_lt := by decide

/-- The page of zeros of `overlaidElf`. -/
def zeroSegment : Segment := ⟨2 ^ 48, 0, 0, 0x1000, 6⟩

/-- The page of zeros is loaded without a copy. -/
theorem loadSegment_zeros {n : Nat} {l : Loader FrameAllocator}
    (h : Lasts (n + 4) l.machine.frames) :
    ∃ s', mapNew true (0x8000000000 + 2 ^ 48) l.machine = .ok s' ∧ Lasts n s'.frames ∧
      loadSegment 0x8000000000 overlaidElf l zeroSegment =
        .ok ⟨s', l.mapped ++ [0x8000000000 + 2 ^ 48], max l.maxEnd (2 ^ 48 + 0x1000)⟩ := by
  obtain ⟨s', hnew, hlasts⟩ := mapNew_lasts true (0x8000000000 + 2 ^ 48) h
  refine ⟨s', hnew, hlasts, ?_⟩
  have hpage : loadPage 0x8000000000 overlaidElf zeroSegment l 0 =
      .ok ⟨s', l.mapped ++ [0x8000000000 + 2 ^ 48], l.maxEnd⟩ :=
    bind_eq_ok.mpr ⟨_, rfl, bind_eq_ok.mpr ⟨s', hnew, rfl⟩⟩
  have hpages : loadPages 0x8000000000 overlaidElf zeroSegment l zeroSegment.pages =
      .ok ⟨s', l.mapped ++ [0x8000000000 + 2 ^ 48], l.maxEnd⟩ := by
    rw [show zeroSegment.pages = 0 + 1 from by decide]
    exact bind_eq_ok.mpr ⟨l, rfl, hpage⟩
  unfold loadSegment
  rw [checked_of_lt (by decide), checked_of_lt (by decide)]
  exact bind_eq_ok.mpr ⟨_, rfl, bind_eq_ok.mpr ⟨_, hpages, rfl⟩⟩

/-- The text of `overlaidElf` is loaded, and eight frames are left. -/
private theorem loadSegment_text :
    ∃ l frame B, loadSegment 0x8000000000 overlaidElf ⟨bootMachine, [], 0⟩ (textSegment 0x1000 2) =
        .ok l ∧
      Shows 0x8000000000 InRegion bootMachine.mem (fun f => ∃ n, f ∈ handed n bootMachine.frames)
        frame l.machine B ∧
      l.mapped = [0x8000001000] ∧ l.maxEnd = 0x1002 ∧ Lasts 8 l.machine.frames := by
  have hb : IsWindow 0x8000000000 InRegion := isWindow_of_lt (i := 1) (by decide)
  have hin : ∀ g ∈ [textSegment 0x1000 2], g.Within InRegion := fun g hg =>
    Segment.within_of_le (List.mem_singleton.mp hg ▸ by decide)
  have hvacant : Vacant 0x8000000000 InRegion bootMachine :=
    vacant_of_free (i := 1) bootMachine_free
  have hd : Describes overlaidElf [textSegment 0x1000 2] :=
    ⟨List.pairwise_singleton .., by decide, by decide⟩
  have hlasts : Lasts (8 + 4 * pageCount [textSegment 0x1000 2]) bootMachine.frames :=
    bootMachine_lasts (by decide)
  have hframes : EnoughFrames 0x8000000000 overlaidElf [textSegment 0x1000 2] bootMachine := by
    intro m _
    exact (loadLoop_supplied (l := ⟨bootMachine.setMem m, [], 0⟩) hlasts).1
  obtain ⟨B, hrun⟩ : ∃ B, AddressSpace.empty.run 4096 (steps overlaidElf [textSegment 0x1000 2]) =
      some B := (textSegment_loadable (by decide)).run
  rcases loadLoop_outcome bootMachine_tree bootMachine_supplies hframes hd hb hin hvacant
    (m := bootMachine.mem) fun _ _ => rfl with ⟨-, hnone⟩ | ⟨l, frame, B', hok, -, hshow⟩
  · exact absurd (hrun.symm.trans hnone) (by simp)
  obtain ⟨l', htext, hnil⟩ := bind_eq_ok.mp hok
  obtain rfl := Except.ok.inj hnil
  obtain ⟨hmapped, hend⟩ := loadLoop_mapped hok
  exact ⟨l', frame, B', htext, hshow, hmapped, hend,
    (loadLoop_supplied (l := ⟨bootMachine, [], 0⟩) hlasts).2 l' hok⟩

/-- The stack of `overlaidElf` is mapped where its text was. -/
theorem stack_replaces_text :
    (loadSegments overlaidElf []).toOption = some (2, [textSegment 0x1000 2, zeroSegment]) ∧
      imageEnd 0 [textSegment 0x1000 2, zeroSegment] + 0xFFF < 2 ^ 64 ∧
      (∃ l f, bringUp true overlaidElf bootMachine = .ok (some l) ∧
        l.mapped = [0x8000001000, 0x1008000000000, 0x1008000001000] ∧
        l.machine.lookup (path 0x8000001000) =
          (Machine.leafEntry (f * 4096) true true, false)) ∧
      ¬ StackApart 0x8000000000 [textSegment 0x1000 2, zeroSegment] := by
  have hload : (loadSegments overlaidElf []).toOption =
      some (2, [textSegment 0x1000 2, zeroSegment]) := by
    decide +kernel
  have hentry : entryPoint overlaidElf = some 0 := by decide
  obtain ⟨l, frame, B, htext, hshow, hmapped, hend, hleft⟩ := loadSegment_text
  obtain ⟨s₂, hnew₂, hlasts₂, hzeros⟩ := loadSegment_zeros (l := l) hleft
  obtain ⟨s₃, hnew₃, -⟩ := mapNew_lasts (n := 0) true (0x8000000000 + (2 ^ 48 + 0x1000)) hlasts₂
  -- The page of zeros has the entry of the region's first page, which is blank.
  have hfirst : path (0x8000000000 + 2 ^ 48) = path (0x8000000000 + 0) :=
    path_eq_iff.mpr (by decide)
  have hopen₂ : (l.machine.lookup (path (0x8000000000 + 2 ^ 48))).2 = false := by
    rw [hfirst]
    exact hshow.not_stopped (by decide)
  obtain ⟨_, hzero⟩ := newPage_of_mapNew hshow.sound hopen₂ hnew₂
  -- The stack has the entry of the text.
  have hsecond : path (0x8000000000 + (2 ^ 48 + 0x1000)) = path (0x8000000000 + 0x1000) :=
    path_eq_iff.mpr (by decide)
  have hopen₃ : (s₂.lookup (path (0x8000000000 + (2 ^ 48 + 0x1000)))).2 = false := by
    rw [hsecond, hzero.other _ rfl (by decide)]
    exact hshow.not_stopped (by decide)
  obtain ⟨f, hstackPage⟩ := newPage_of_mapNew hzero.sound hopen₃ hnew₃
  have hleaf := hstackPage.leaf
  rw [hsecond] at hleaf
  have hindex : stackIndex [textSegment 0x1000 2, zeroSegment] * 4096 = 2 ^ 48 + 0x1000 := by
    decide
  have hstack := @mapStack_eq _ _ 0x8000000000 [textSegment 0x1000 2, zeroSegment]
    ⟨s₂, l.mapped ++ [0x8000000000 + 2 ^ 48], max l.maxEnd (2 ^ 48 + 0x1000)⟩ s₃
    (by rw [hend]; rfl) (by decide) (by rw [hindex]; exact hnew₃)
  have hprogram : loadProgram ((1 : Fin 512).val * 2 ^ 39) overlaidElf
      [textSegment 0x1000 2, zeroSegment] bootMachine = .ok _ :=
    bind_eq_ok.mpr ⟨_, bind_eq_ok.mpr ⟨l, htext, bind_eq_ok.mpr ⟨_, hzeros, rfl⟩⟩, hstack⟩
  have hup := bringUp_of_loadProgram bootMachine_free (by decide) hentry (by decide)
    (eq_ok_of_toOption hload) (by simp) hprogram
  refine ⟨hload, by decide, ⟨_, f, hup, ?_, hleaf⟩, fun h => ?_⟩
  · rw [hmapped, hindex]
    rfl
  · exact h.apart 0x8000001000 (by decide) (by decide)

end LionOS.User
