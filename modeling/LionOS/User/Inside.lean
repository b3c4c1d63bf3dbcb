import LionOS.User.Faults

/-!
# Loads that stay inside

A turn of the load loop that the loop does not come to does no harm. The loader stays in
its region and its file exactly when every turn fits that has no faulting turn before it.
-/

namespace LionOS.User

open Lib Paging Frames

variable {σ : Type} [FrameSource σ]

/-- Every turn before which none faults fits, every segment before which none faults has a
page count that is a machine word, and the entry point is a machine word above the base. -/
structure FitsUntilFault (base : Nat) (elf : Slice) (segs : List Segment) (s : Machine σ) :
    Prop where
  entry : ∀ e, entryPoint elf = some e → base + e < 2 ^ 64
  size : ∀ before g after, segs = before ++ g :: after →
    GoesThrough base s (steps elf before) → g.memsz + 4095 < 2 ^ 64
  page : ∀ before g after i, segs = before ++ g :: after → i < g.pages →
    GoesThrough base s (steps elf before ++ (List.range i).map (g.step elf)) →
    g.PageFits elf.len i

omit [FrameSource σ] in
/-- A program all of whose segments fit does so until a fault. -/
theorem ProgramFits.fitsUntilFault {base : Nat} {elf : Slice} {segs : List Segment}
    (h : ProgramFits base elf segs) (s : Machine σ) : FitsUntilFault base elf segs s where
  entry := h.1
  size before g after hsegs _ := by
    have hfit := h.2 g (by simp [hsegs])
    rcases hfit with h0 | ⟨hregion, -, -⟩
    · omega
    · unfold Segment.pages at hregion
      omega
  page before g after i hsegs hi _ := (h.2 g (by simp [hsegs])).pageFits hi

/-- A part of the load ends out of frames, or where one of its steps faults, or goes through
as its steps do. -/
def Tracks (base : Nat) (s : Machine σ) (r : Except Halt (Loader σ))
    (sts : List (PageLoad UInt8)) : Prop :=
  r = .error .outOfFrames ∨ (r = .error .pageFault ∧ ¬ GoesThrough base s sts) ∨
    ∃ l, r = .ok l ∧ GoesThrough base s sts ∧ Reached base s sts l.machine

theorem Tracks.bind {base : Nat} {s : Machine σ} {r : Except Halt (Loader σ)}
    {k : Loader σ → Except Halt (Loader σ)} {sts more : List (PageLoad UInt8)}
    (h : Tracks base s r sts)
    (hk : ∀ l, GoesThrough base s sts → Reached base s sts l.machine →
      Tracks base s (k l) (sts ++ more)) : Tracks base s (r >>= k) (sts ++ more) := by
  rcases h with rfl | ⟨rfl, hfault⟩ | ⟨l, rfl, hgo, hreach⟩
  · exact Or.inl rfl
  · exact Or.inr (Or.inl ⟨rfl, fun hgo => hfault hgo.initial⟩)
  · exact hk l hgo hreach

theorem Tracks.of_ok {base : Nat} {s : Machine σ} {l : Loader σ} {sts : List (PageLoad UInt8)}
    (h : Tracks base s (.ok l) sts) : GoesThrough base s sts ∧ Reached base s sts l.machine := by
  rcases h with h | ⟨h, -⟩ | ⟨l', h, hgo, hreach⟩
  · exact absurd h (by simp)
  · exact absurd h (by simp)
  · obtain rfl := Except.ok.inj h
    exact ⟨hgo, hreach⟩

/-- The steps up to and including page `n`. -/
theorem steps_concat_range {n : Nat} {elf : Slice} {g : Segment} {sts : List (PageLoad UInt8)} :
    sts ++ (List.range (n + 1)).map (g.step elf) =
      sts ++ (List.range n).map (g.step elf) ++ [g.step elf n] := by
  rw [List.range_succ, List.map_append, List.map_singleton, List.append_assoc]

section

variable {base : Nat} {elf : Slice} {segs before after : List Segment} {g : Segment} {i n : Nat}
  {s : Machine σ} {l : Loader σ} {sts : List (PageLoad UInt8)} (hb : IsWindow base InRegion)
  (hal : base % 2 ^ 39 = 0) (hvacant : Vacant base InRegion s) (hnext : NextPageApart base s)

include hb hal hvacant hnext

/-- The first pages of a segment whose turns fit. -/
theorem loadPages_tracks (hgo : GoesThrough base s sts) (h : Reached base s sts l.machine)
    (hfit : ∀ i < n, GoesThrough base s (sts ++ (List.range i).map (g.step elf)) →
      g.PageFits elf.len i) :
    Tracks base s (loadPages base elf g l n) (sts ++ (List.range n).map (g.step elf)) := by
  induction n with
  | zero =>
    rw [List.range_zero, List.map_nil, List.append_nil]
    exact Or.inr (Or.inr ⟨l, rfl, hgo, h⟩)
  | succ n ih =>
    have hbefore := ih fun i hi => hfit i (by omega)
    rw [steps_concat_range]
    refine hbefore.bind fun l' hgo' h' => ?_
    rcases h'.loadPage hb hal hvacant hnext (hfit n (by omega) hgo') with
      hdry | ⟨hfault, hf⟩ | ⟨l₂, hok, hf, h₂⟩
    · exact Or.inl hdry
    · exact Or.inr (Or.inl ⟨hfault, fun hgo => (goesThrough_concat.mp hgo).2 hf⟩)
    · exact Or.inr (Or.inr ⟨l₂, hok, goesThrough_concat.mpr ⟨hgo', hf⟩, h₂⟩)

/-- One turn of the segment loop. -/
private theorem loadSegment_tracks (hvaddr : g.vaddr < 2 ^ 64) (hgo : GoesThrough base s sts)
    (h : Reached base s sts l.machine) (hsize : g.memsz + 4095 < 2 ^ 64)
    (hfit : ∀ i < g.pages, GoesThrough base s (sts ++ (List.range i).map (g.step elf)) →
      g.PageFits elf.len i) :
    Tracks base s (loadSegment base elf l g) (sts ++ g.steps elf) := by
  have hpages := loadPages_tracks hb hal hvacant hnext hgo h hfit
  unfold loadSegment
  rw [checked_of_lt hsize, ← List.append_nil (sts ++ g.steps elf)]
  refine hpages.bind fun l' hgo' h' => ?_
  have hstop : g.vaddr + g.memsz < 2 ^ 64 := by
    by_cases h0 : g.memsz = 0
    · rwa [h0]
    · -- The last page of the segment fits.
      have hcount : g.pages = (g.memsz + 4095) / 4096 := rfl
      obtain ⟨n, hn⟩ : ∃ n, g.pages = n + 1 := ⟨g.pages - 1, by omega⟩
      rw [hn, steps_concat_range] at hgo'
      have hlast := (hfit n (by omega) hgo'.initial).page
      omega
  rw [checked_of_lt hstop, List.append_nil]
  exact Or.inr (Or.inr ⟨_, rfl, hgo', h'.shows, h'.inside, h'.next, h'.tables⟩)

variable (htree : s.Tree)
  (hsupply : Supplies s.frames fun f => f < 2 ^ 40 ∧ ¬ s.Reachable (f * 4096))

include htree hsupply

/-- The segment loop of a program that fits until a fault. -/
theorem loadLoop_tracks (hvaddr : ∀ g ∈ segs, g.vaddr < 2 ^ 64)
    (hfits : FitsUntilFault base elf segs s) (hsegs : segs = before ++ after) :
    Tracks base s (loadLoop base elf ⟨s, [], 0⟩ before) (steps elf before) := by
  induction before using List.reverseRecOn generalizing after with
  | nil => exact Or.inr (Or.inr ⟨_, rfl, goesThrough_nil, .start htree hsupply hvacant⟩)
  | append_singleton before g ih =>
    have hsegs' : segs = before ++ g :: after := by simp [hsegs]
    rw [loadLoop_append, steps_append, steps_cons]
    refine (ih hsegs').bind fun l hgo h => ?_
    have hone := loadSegment_tracks hb hal hvacant hnext
      (hvaddr g (by simp [hsegs])) hgo h (hfits.size before g after hsegs' hgo)
      fun i hi => hfits.page before g after i hsegs' hi
    have hnil : g.steps elf ++ steps elf [] = g.steps elf := List.append_nil _
    rw [hnil, ← List.append_nil (steps elf before ++ g.steps elf)]
    refine hone.bind fun l' hgo' h' => ?_
    rw [List.append_nil]
    exact Or.inr (Or.inr ⟨l', rfl, hgo', h'⟩)

/-- Every turn that the loop comes to fits. -/
theorem FitsUntilFault.pageFits (hvaddr : ∀ g ∈ segs, g.vaddr < 2 ^ 64)
    (hfits : FitsUntilFault base elf segs s) (hcomes : ComesTo base elf segs s g i l) :
    g.PageFits elf.len i := by
  obtain ⟨before, after, l₀, hsegs, hbefore, -, hi, hpages⟩ := hcomes
  have hloop := loadLoop_tracks hb hal hvacant hnext htree hsupply hvaddr hfits hsegs
  rw [hbefore] at hloop
  obtain ⟨hgo, h⟩ := hloop.of_ok
  have hturns := loadPages_tracks (n := i) hb hal hvacant hnext hgo h fun j hj =>
    hfits.page before g after j hsegs (hj.trans hi)
  rw [hpages] at hturns
  exact hfits.page before g after i hsegs hi hturns.of_ok.1

/-- So the loader stays inside. -/
theorem FitsUntilFault.staysInside (hvaddr : ∀ g ∈ segs, g.vaddr < 2 ^ 64)
    (hfits : FitsUntilFault base elf segs s) : StaysInside base elf segs s where
  maps := by
    rintro g i v ⟨rfl, -, l, -, hcomes, -⟩
    have hpage := (hfits.pageFits hb hal hvacant hnext htree hsupply hvaddr hcomes).page
    omega
  copies := by
    rintro off n ⟨g, i, v, ⟨-, -, l, -, hcomes, -⟩, rfl, -, rfl, hn⟩
    exact (hfits.pageFits hb hal hvacant hnext htree hsupply hvaddr hcomes).share hn
  entry := hfits.entry
  sums h := by
    have hloop : Tracks base s (loadLoop base elf ⟨s, [], 0⟩ segs) (steps elf segs) :=
      loadLoop_tracks hb hal hvacant hnext htree hsupply hvaddr hfits (List.append_nil _).symm
    rw [h] at hloop
    rcases hloop with he | ⟨he, -⟩ | ⟨l, he, -⟩ <;> exact absurd he (by simp)

end

section

variable {base : Nat} {elf : Slice} {segs before after : List Segment} {g : Segment} {i n : Nat}
  {s : Machine σ} {l l₀ : Loader σ} {e : Halt}

/-- What stops a turn of the segment loop stops the loop. -/
theorem loadLoop_error (hbefore : loadLoop base elf ⟨s, [], 0⟩ before = .ok l₀)
    (hseg : loadSegment base elf l₀ g = .error e) :
    loadLoop base elf ⟨s, [], 0⟩ (before ++ g :: after) = .error e := by
  rw [loadLoop_append, hbefore]
  simp only [Bind.bind, Except.bind, loadLoop, hseg]

private theorem loadPages_error (hi : i < n) (hpages : loadPages base elf g l₀ i = .ok l)
    (hpage : loadPage base elf g l i = .error e) : loadPages base elf g l₀ n = .error e := by
  induction n with
  | zero => omega
  | succ n ih =>
    rw [loadPages]
    by_cases hin : i < n
    · rw [ih hin]
      rfl
    · obtain rfl : i = n := by omega
      rw [hpages]
      exact hpage

/-- What stops a turn that the loop comes to stops the loop. -/
theorem ComesTo.error (hcomes : ComesTo base elf segs s g i l)
    (hpage : loadPage base elf g l i = .error e) :
    loadLoop base elf ⟨s, [], 0⟩ segs = .error e := by
  obtain ⟨before, after, l₀, rfl, hbefore, hsize, hi, hpages⟩ := hcomes
  apply loadLoop_error hbefore
  unfold loadSegment
  rw [checked_of_lt hsize]
  simp only [Bind.bind, Except.bind, loadPages_error hi hpages hpage]

theorem checked_of_not_lt {k : Nat} (h : ¬ k < 2 ^ 64) : checked k = .error .overflow := if_neg h

variable (hin : StaysInside base elf segs s)
  (hframes : loadLoop base elf ⟨s, [], 0⟩ segs ≠ .error .outOfFrames)

include hin hframes

/-- Every turn fits that a load comes to that stays inside and does not run out of frames. -/
theorem StaysInside.pageFits (hbase : base % 4096 = 0) (hcomes : ComesTo base elf segs s g i l) :
    g.PageFits elf.len i := by
  have hover : loadPage base elf g l i ≠ .error .overflow := fun h => hin.sums (hcomes.error h)
  have hdry : loadPage base elf g l i ≠ .error .outOfFrames := fun h => hframes (hcomes.error h)
  have hvaddr : base + g.vaddr + i * 4096 < 2 ^ 64 := by
    by_contra hlarge
    apply hover
    rw [loadPage, checked_of_not_lt hlarge]
    rfl
  unfold loadPage at hover hdry
  rw [checked_of_lt hvaddr] at hover hdry
  rcases mapNew_cases g.writable (base + g.vaddr + i * 4096) l.machine with
    hnone | ⟨-, -, s', -, -, hok⟩
  · simp only [Bind.bind, Except.bind, hnone] at hdry
    exact absurd rfl hdry
  have hmaps : MapsAt base elf segs s g i (base + g.vaddr + i * 4096) :=
    ⟨rfl, hvaddr, l, s', hcomes, hok⟩
  have hword : g.fileOff + i * 4096 < 2 ^ 64 := by
    by_contra hlarge
    simp only [Bind.bind, Except.bind, hok, checked_of_not_lt hlarge] at hover
    exact hover rfl
  have hregion := (hin.maps g i _ hmaps).2
  exact ⟨by omega, hword, fun hn => hin.copies _ _ ⟨g, i, _, hmaps, rfl, hword, rfl, hn⟩⟩

omit hframes in
/-- The page count of a segment that the loop comes to is a machine word. -/
theorem StaysInside.memsz_lt (hsegs : segs = before ++ g :: after)
    (hbefore : loadLoop base elf ⟨s, [], 0⟩ before = .ok l₀) : g.memsz + 4095 < 2 ^ 64 := by
  by_contra hlarge
  apply hin.sums
  rw [hsegs]
  apply loadLoop_error hbefore
  rw [loadSegment, checked_of_not_lt hlarge]
  rfl

variable (hb : IsWindow base InRegion) (hal : base % 2 ^ 39 = 0)
  (hvacant : Vacant base InRegion s) (hnext : NextPageApart base s)

include hb hal hvacant hnext

/-- The loop comes to the pages of a segment before which no step faults. -/
theorem StaysInside.loadPages_reached (hsegs : segs = before ++ g :: after)
    (hbefore : loadLoop base elf ⟨s, [], 0⟩ before = .ok l₀)
    (h₀ : Reached base s (steps elf before) l₀.machine) (hn : n ≤ g.pages)
    (hgo : GoesThrough base s (steps elf before ++ (List.range n).map (g.step elf))) :
    ∃ l, loadPages base elf g l₀ n = .ok l ∧
      Reached base s (steps elf before ++ (List.range n).map (g.step elf)) l.machine := by
  have hsize := hin.memsz_lt hsegs hbefore
  induction n with
  | zero =>
    rw [List.range_zero, List.map_nil, List.append_nil]
    exact ⟨l₀, rfl, h₀⟩
  | succ n ih =>
    rw [steps_concat_range] at hgo ⊢
    obtain ⟨hgo', hlast⟩ := goesThrough_concat.mp hgo
    obtain ⟨l, hl, h⟩ := ih (by omega) hgo'
    have hcomes : ComesTo base elf segs s g n l :=
      ⟨before, after, l₀, hsegs, hbefore, hsize, by omega, hl⟩
    have hfit := hin.pageFits hframes hb.aligned hcomes
    rcases h.loadPage hb hal hvacant hnext hfit with hdry | ⟨-, hf⟩ | ⟨l', hok, -, h'⟩
    · exact absurd (hcomes.error hdry) hframes
    · exact absurd hf hlast
    · exact ⟨l', bind_eq_ok.mpr ⟨l, hl, hok⟩, h'⟩

variable (htree : s.Tree)
  (hsupply : Supplies s.frames fun f => f < 2 ^ 40 ∧ ¬ s.Reachable (f * 4096))

include htree hsupply

/-- The loop comes to a segment before which no step faults. -/
theorem StaysInside.loadLoop_reached (hsegs : segs = before ++ after)
    (hgo : GoesThrough base s (steps elf before)) :
    ∃ l, loadLoop base elf ⟨s, [], 0⟩ before = .ok l ∧
      Reached base s (steps elf before) l.machine := by
  induction before using List.reverseRecOn generalizing after with
  | nil => exact ⟨_, rfl, .start htree hsupply hvacant⟩
  | append_singleton before g ih =>
    have hsegs' : segs = before ++ g :: after := by simp [hsegs]
    have hall : steps elf (before ++ [g]) =
        steps elf before ++ (List.range g.pages).map (g.step elf) := by
      rw [steps_append, steps_cons]
      exact congrArg _ (List.append_nil _)
    rw [hall] at hgo ⊢
    obtain ⟨l₀, hl₀, h₀⟩ := ih hsegs' hgo.initial
    obtain ⟨l, hl, h⟩ :=
      hin.loadPages_reached hframes hb hal hvacant hnext hsegs' hl₀ h₀ le_rfl hgo
    have hsize := hin.memsz_lt hsegs' hl₀
    have hstop : g.vaddr + g.memsz < 2 ^ 64 := by
      by_contra hlarge
      apply hin.sums
      rw [hsegs']
      apply loadLoop_error hl₀
      rw [loadSegment, checked_of_lt hsize]
      simp only [Bind.bind, Except.bind, hl, checked_of_not_lt hlarge]
    refine ⟨⟨l.machine, l.mapped, max l.maxEnd (g.vaddr + g.memsz)⟩, ?_,
      h.shows, h.inside, h.next, h.tables⟩
    rw [loadLoop_append, hl₀]
    simp only [Bind.bind, Except.bind, loadLoop, loadSegment, checked_of_lt hsize, hl,
      checked_of_lt hstop]

theorem StaysInside.fitsUntilFault : FitsUntilFault base elf segs s where
  entry := hin.entry
  size before g after hsegs hgo := by
    obtain ⟨l₀, hl₀, -⟩ :=
      hin.loadLoop_reached hframes hb hal hvacant hnext htree hsupply hsegs hgo
    exact hin.memsz_lt hsegs hl₀
  page before g after i hsegs hi hgo := by
    obtain ⟨l₀, hl₀, h₀⟩ :=
      hin.loadLoop_reached hframes hb hal hvacant hnext htree hsupply hsegs hgo.initial
    obtain ⟨l, hl, -⟩ :=
      hin.loadPages_reached hframes hb hal hvacant hnext hsegs hl₀ h₀ hi.le hgo
    exact hin.pageFits hframes hb.aligned
      ⟨before, after, l₀, hsegs, hl₀, hin.memsz_lt hsegs hl₀, hi, hl⟩

end

/-- **The loader stays inside exactly when every turn fits that it comes to.** At a base index
below 256, over tables that form a tree, with an allocator that hands out different frames
of the 52-bit physical memory, none of them a table, and with neither a table nor such a
frame mapped just above the region: a program whose turns fit, up to the first that the
headers make fault, is loaded inside its region and its file, without an overflow. Where
the frames are enough for the load, as four for each page are, no other program is. -/
theorem staysInside_iff_fitsUntilFault {i : Fin 512} {elf : Slice} {n : Nat}
    {segs : List Segment} {s : Machine σ} (hlt : i.val < 256)
    (hsegs : loadSegments elf [] = .ok (n, segs)) (hfree : s.findFreeTopIndex = some i)
    (htree : s.Tree)
    (hsupply : Supplies s.frames fun f => f < 2 ^ 40 ∧ ¬ s.Reachable (f * 4096))
    (hnext : NextPageApart (i.val * 2 ^ 39) s) :
    (FitsUntilFault (i.val * 2 ^ 39) elf segs s → StaysInside (i.val * 2 ^ 39) elf segs s) ∧
      (loadLoop (i.val * 2 ^ 39) elf ⟨s, [], 0⟩ segs ≠ .error .outOfFrames →
        (StaysInside (i.val * 2 ^ 39) elf segs s ↔
          FitsUntilFault (i.val * 2 ^ 39) elf segs s)) := by
  have hb : IsWindow (i.val * 2 ^ 39) InRegion := isWindow_of_lt hlt
  have hal : i.val * 2 ^ 39 % 2 ^ 39 = 0 := Nat.mul_mod_left ..
  have hvacant : Vacant (i.val * 2 ^ 39) InRegion s := vacant_of_free hfree
  have hstays : FitsUntilFault (i.val * 2 ^ 39) elf segs s →
      StaysInside (i.val * 2 ^ 39) elf segs s := fun h =>
    h.staysInside hb hal hvacant hnext htree hsupply (loadSegments_vaddr hsegs)
  exact ⟨hstays, fun hframes =>
    ⟨fun h => h.fitsUntilFault hframes hb hal hvacant hnext htree hsupply, hstays⟩⟩

/-- Nothing is mapped above the region of the base. -/
private theorem bootMachine_next : NextPageApart 0x8000000000 bootMachine := by
  intro v hv hv' x hx
  have hnone : bootMachine.physical (0x8000000000 + v) = none :=
    Machine.physical_of_blank (Or.inl (by omega)) (bootMachine_lookup (by omega))
  exact absurd (hx.symm.trans hnone) (by simp)

/-- A program of one page at the base of the region fits and stays inside. -/
theorem staysInside_text :
    FitsUntilFault 0x8000000000 (textElf 0 2) [textSegment 0 2] bootMachine ∧
      StaysInside 0x8000000000 (textElf 0 2) [textSegment 0 2] bootMachine := by
  have hsegs : (loadSegments (textElf 0 2) []).toOption = some (1, [textSegment 0 2]) := by
    decide
  have hentry : entryPoint (textElf 0 2) = some 0 := by decide
  have hfits : ProgramFits 0x8000000000 (textElf 0 2) [textSegment 0 2] := by
    constructor
    · intro e he
      obtain rfl := Option.some.inj (hentry.symm.trans he)
      decide
    · intro g hg
      rw [List.mem_singleton.mp hg]
      decide
  obtain ⟨hinside, hiff⟩ := staysInside_iff_fitsUntilFault (i := 1) (by decide)
    (eq_ok_of_toOption hsegs) bootMachine_free bootMachine_tree bootMachine_supplies
    bootMachine_next
  have hstays := hinside (hfits.fitsUntilFault bootMachine)
  refine ⟨(hiff fun hdry => ?_).mp hstays, hstays⟩
  obtain ⟨l, -, -, -, hl, -⟩ := bringUp_text (by decide) (by decide) hentry (by decide) hsegs
  obtain ⟨l', hl', -⟩ := bind_eq_ok.mp hl
  exact absurd (hl'.symm.trans hdry) (by simp)

/-- The text linked at `USER_BASE`, 1 TiB, is mapped past the end of the region. -/
theorem text_at_userBase_leaves_region :
    entryPoint (textElf 0x10000000000 2) = some 0 ∧
      (loadSegments (textElf 0x10000000000 2) []).toOption =
        some (1, [textSegment 0x10000000000 2]) ∧
      bootMachine.findFreeTopIndex = some 1 ∧
      MapsAt 0x8000000000 (textElf 0x10000000000 2) [textSegment 0x10000000000 2] bootMachine
        (textSegment 0x10000000000 2) 0 0x18000000000 ∧
      ¬ StaysInside 0x8000000000 (textElf 0x10000000000 2) [textSegment 0x10000000000 2]
        bootMachine := by
  have hmaps : MapsAt 0x8000000000 (textElf 0x10000000000 2) [textSegment 0x10000000000 2]
      bootMachine (textSegment 0x10000000000 2) 0 0x18000000000 := by
    obtain ⟨s', hnew, -⟩ := mapNew_lasts (n := 0) (s := bootMachine) false 0x18000000000
      (bootMachine_lasts (by decide))
    exact ⟨rfl, by decide, ⟨bootMachine, [], 0⟩, s',
      ⟨[], [], _, rfl, rfl, by decide, by decide, rfl⟩, hnew⟩
  refine ⟨by decide, by decide, bootMachine_free, hmaps, fun h => ?_⟩
  have hregion := (h.maps _ _ _ hmaps).2
  omega

end LionOS.User
