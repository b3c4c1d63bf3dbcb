import LionOS.Lib.AddressSpace
import LionOS.User.Elf
import Mathlib.Data.List.Induction

/-!
# Which programs survive loading

The load loop is a run of steps, one per page of each segment: the step maps the
page of its target address and copies up to 4096 bytes there. The bytes of an
unaligned segment go on into the next page, which the next step maps again; two
segments that meet in a page take it from each other; and nothing writes the
bytes of a segment past its file size.

`Loadable` says which segment lists come through: exactly those for which every
byte of every segment is a byte of the file in the end.
-/

namespace LionOS.User

open Lib

/-- The step that loads page `i` of a segment. -/
def Segment.step (elf : Slice) (g : Segment) (i : Nat) : PageLoad UInt8 where
  page := g.pageAt i
  dst := g.vaddr + i * 4096
  count := min (g.filesz - i * 4096) 4096
  src := fun k => elf.mem (g.fileOff + i * 4096 + k)

/-- The steps that load a segment. -/
def Segment.steps (elf : Slice) (g : Segment) : List (PageLoad UInt8) :=
  (List.range g.pages).map (g.step elf)

/-- The steps of the load loop. -/
def steps (elf : Slice) (segs : List Segment) : List (PageLoad UInt8) :=
  segs.flatMap (Segment.steps elf)

/-- No two segments share an address. -/
def NonOverlapping (segs : List Segment) : Prop :=
  segs.Pairwise fun g h => ∀ v, ¬ (g.Covers v ∧ h.Covers v)

/-- The segment can be loaded after the `earlier` ones: it is all file bytes, it starts
on a page boundary or fits in one page's worth of bytes, it takes no page that holds
bytes of an earlier segment, and what it writes beyond its own pages lands in pages
of earlier segments. -/
structure Placeable (earlier : List Segment) (g : Segment) : Prop where
  full : g.filesz = g.memsz
  aligned : g.vaddr % 4096 = 0 ∨ g.memsz ≤ 4096
  apart : ∀ e ∈ earlier, ∀ v, e.Covers v → ¬ g.Maps (v / 4096)
  backed : ∀ v, g.Covers v → g.Maps (v / 4096) ∨ ∃ e ∈ earlier, e.Maps (v / 4096)

/-- Every segment can be loaded after the ones before it. -/
def Loadable (segs : List Segment) : Prop :=
  ∀ earlier g later, segs = earlier ++ g :: later → Placeable earlier g

variable {elf : Slice} {segs earlier later : List Segment} {g h : Segment} {i n v : Nat}
  {st : PageLoad UInt8} {B : AddressSpace UInt8}

/-- A step writes the file bytes of its own 4096-byte share. -/
theorem Segment.step_writes :
    (g.step elf i).Writes v ↔
      g.vaddr ≤ v ∧ v - g.vaddr < g.filesz ∧ (v - g.vaddr) / 4096 = i := by
  simp only [PageLoad.Writes, Segment.step]
  omega

theorem Segment.covers_of_writes (hsz : g.filesz ≤ g.memsz) (hw : (g.step elf i).Writes v) :
    g.Covers v := by
  obtain ⟨hlo, hhi, -⟩ := Segment.step_writes.mp hw
  exact ⟨hlo, by omega⟩

theorem Segment.mem_steps : st ∈ g.steps elf ↔ ∃ i < g.pages, g.step elf i = st := by
  simp [Segment.steps]

theorem mem_steps : st ∈ steps elf segs ↔ ∃ g ∈ segs, st ∈ g.steps elf := by
  simp [steps]

theorem steps_cons : steps elf (g :: segs) = g.steps elf ++ steps elf segs := rfl

theorem steps_append : steps elf (segs ++ later) = steps elf segs ++ steps elf later := by
  simp [steps]

theorem Segment.steps_page : (∃ st ∈ g.steps elf, st.page = n) ↔ g.Maps n := by
  rw [Segment.maps_iff]
  simp [Segment.steps, Segment.step]

theorem steps_page : (∃ st ∈ steps elf segs, st.page = n) ↔ ∃ g ∈ segs, g.Maps n := by
  constructor
  · rintro ⟨st, hst, hp⟩
    obtain ⟨g, hg, hst⟩ := mem_steps.mp hst
    exact ⟨g, hg, Segment.steps_page.mp ⟨st, hst, hp⟩⟩
  · rintro ⟨g, hg, hp⟩
    obtain ⟨st, hst, hp⟩ := Segment.steps_page.mpr hp
    exact ⟨st, mem_steps.mpr ⟨g, hg, hst⟩, hp⟩

private theorem range_split (h : i < n) :
    ∃ s t, List.range n = s ++ i :: t ∧ (∀ j ∈ s, j < i) ∧ ∀ j ∈ t, i < j ∧ j < n := by
  obtain ⟨s, t, hst⟩ := List.append_of_mem (List.mem_range.mpr h)
  have hlt : (s ++ i :: t).Pairwise (· < ·) := hst ▸ List.pairwise_lt_range
  obtain ⟨-, ht, hs⟩ := List.pairwise_append.mp hlt
  refine ⟨s, t, hst, fun j hj => hs j hj i (List.mem_cons_self ..), fun j hj => ⟨?_, ?_⟩⟩
  · exact (List.pairwise_cons.mp ht).1 j hj
  · apply List.mem_range.mp
    rw [hst]
    exact List.mem_append_right _ (List.mem_cons_of_mem _ hj)

/-- The steps before and after one step of a segment. -/
theorem steps_split (elf : Slice) (hsegs : segs = earlier ++ g :: later) (hi : i < g.pages) :
    ∃ s t : List Nat, steps elf segs = (steps elf earlier ++ s.map (g.step elf)) ++
        g.step elf i :: (t.map (g.step elf) ++ steps elf later) ∧
      (∀ j ∈ s, j < i) ∧ ∀ j ∈ t, i < j ∧ j < g.pages := by
  obtain ⟨s, t, hrange, hs, ht⟩ := range_split hi
  refine ⟨s, t, ?_, hs, ht⟩
  rw [hsegs, steps_append, steps_cons, Segment.steps, hrange]
  simp

/-- The step that loads an address of a segment. -/
theorem Segment.Covers.step_lt (hv : g.Covers v) : (v - g.vaddr) / 4096 < g.pages := by
  unfold Segment.Covers at hv
  unfold Segment.pages
  omega

/-- What a step writes is covered by one of the segments that are loaded. -/
theorem exists_covers_of_writes (hsz : ∀ g ∈ segs, g.filesz ≤ g.memsz)
    (hst : st ∈ steps elf segs) (hw : st.Writes v) : ∃ e ∈ segs, e.Covers v := by
  obtain ⟨e, he, hst⟩ := mem_steps.mp hst
  obtain ⟨i, -, rfl⟩ := Segment.mem_steps.mp hst
  exact ⟨e, he, Segment.covers_of_writes (hsz e he) hw⟩

section

variable (hsz : ∀ g ∈ segs, g.filesz ≤ g.memsz) (hdisj : NonOverlapping segs)
  (hsegs : segs = earlier ++ g :: later)

include hsz hdisj hsegs

/-- The steps of the segments before do not write a segment's addresses. -/
theorem not_writes_of_earlier (hv : g.Covers v) (hst : st ∈ steps elf earlier) :
    ¬ st.Writes v := by
  subst hsegs
  intro hw
  obtain ⟨e, he, hcov⟩ := exists_covers_of_writes
    (fun e he => hsz e (List.mem_append_left _ he)) hst hw
  exact (List.pairwise_append.mp hdisj).2.2 e he g (List.mem_cons_self ..) v ⟨hcov, hv⟩

/-- Nor do those of the segments behind. -/
theorem not_writes_of_later (hv : g.Covers v) (hst : st ∈ steps elf later) :
    ¬ st.Writes v := by
  subst hsegs
  intro hw
  obtain ⟨e, he, hcov⟩ := exists_covers_of_writes
    (fun e he => hsz e (List.mem_append_right _ (List.mem_cons_of_mem _ he))) hst hw
  have htail := (List.pairwise_append.mp hdisj).2.1
  exact (List.pairwise_cons.mp htail).1 e he v ⟨hv, hcov⟩

end

/-- A byte left at an address of a segment is that segment's file byte. -/
theorem eq_of_run_holds {b : UInt8} (hsz : ∀ g ∈ segs, g.filesz ≤ g.memsz)
    (hdisj : NonOverlapping segs) (hrun : AddressSpace.empty.run 4096 (steps elf segs) = some B)
    (hg : g ∈ segs) (hv : g.Covers v) (hb : B v = .holds b) :
    v - g.vaddr < g.filesz ∧ b = elf.mem (g.fileOff + (v - g.vaddr)) := by
  obtain ⟨earlier, later, hsegs⟩ := List.append_of_mem hg
  rcases AddressSpace.exists_of_run_holds hrun hb with hempty | ⟨st, hst, hw, rfl⟩
  · exact absurd hempty (by simp [AddressSpace.empty])
  · rw [hsegs, steps_append, steps_cons] at hst
    rcases List.mem_append.mp hst with hst | hst
    · exact absurd hw (not_writes_of_earlier hsz hdisj hsegs hv hst)
    · rcases List.mem_append.mp hst with hst | hst
      · obtain ⟨i, -, rfl⟩ := Segment.mem_steps.mp hst
        obtain ⟨hlo, hlt, hi⟩ := Segment.step_writes.mp hw
        refine ⟨hlt, ?_⟩
        have hoff : g.fileOff + i * 4096 + (v - (g.vaddr + i * 4096)) =
            g.fileOff + (v - g.vaddr) := by omega
        simp only [Segment.step, hoff]
      · exact absurd hw (not_writes_of_later hsz hdisj hsegs hv hst)

/-- A placeable segment writes its own page or pages of earlier segments. -/
theorem Placeable.writes_mapped (hp : Placeable earlier g)
    (hw : (g.step elf i).Writes v) :
    v / 4096 = (g.step elf i).page ∨ ∃ e ∈ earlier, e.Maps (v / 4096) := by
  have hcov : g.Covers v := Segment.covers_of_writes hp.full.le hw
  obtain ⟨hlo, -, hi⟩ := Segment.step_writes.mp hw
  have hpage : (g.step elf i).page = g.vaddr / 4096 + i := g.pageAt_eq i
  rcases hp.aligned with hal | hsmall
  · left
    omega
  · rcases hp.backed v hcov with hmap | he
    · left
      simp only [Segment.Maps, Segment.pages] at hmap
      simp only [Segment.Covers] at hcov
      omega
    · exact Or.inr he

theorem Loadable.initial (h : Loadable (segs ++ later)) : Loadable segs := by
  intro earlier g rest hsegs
  exact h earlier g (rest ++ later) (by simp [hsegs])

/-- Loading a loadable program does not fault. -/
theorem Loadable.run (h : Loadable segs) :
    ∃ B, AddressSpace.empty.run 4096 (steps elf segs) = some B := by
  induction segs using List.reverseRecOn with
  | nil => exact ⟨_, rfl⟩
  | append_singleton segs g ih =>
    obtain ⟨C, hC⟩ := ih h.initial
    have hplace : Placeable segs g := h segs g [] rfl
    have hstep : ∀ st ∈ g.steps elf, ∀ v, st.Writes v → v / 4096 = st.page ∨ C v ≠ .unmapped := by
      intro st hst v hw
      obtain ⟨i, -, rfl⟩ := Segment.mem_steps.mp hst
      rcases hplace.writes_mapped hw with hp | he
      · exact Or.inl hp
      · exact Or.inr ((AddressSpace.run_unmapped_iff hC).mpr (Or.inr (steps_page.mpr he)))
    obtain ⟨B, hB⟩ := AddressSpace.run_eq_some hstep
    refine ⟨B, ?_⟩
    rw [steps_append, AddressSpace.run_append, hC, Option.bind_some, steps_cons,
      AddressSpace.run_append, hB]
    rfl

/-- Every byte of a loadable program is a file byte in the end. -/
theorem Loadable.holds (hsz : ∀ g ∈ segs, g.filesz ≤ g.memsz) (hdisj : NonOverlapping segs)
    (h : Loadable segs) (hrun : AddressSpace.empty.run 4096 (steps elf segs) = some B)
    (hg : g ∈ segs) (hv : g.Covers v) : ∃ b, B v = .holds b := by
  obtain ⟨earlier, later, hsegs⟩ := List.append_of_mem hg
  have hplace := h earlier g later hsegs
  have hfull := hplace.full
  obtain ⟨s, t, hsplit, -, ht⟩ := steps_split elf hsegs hv.step_lt
  obtain ⟨hlo, hhi⟩ := hv
  rw [hsplit] at hrun
  refine ⟨_, AddressSpace.run_holds hrun (Segment.step_writes.mpr ⟨hlo, by omega, rfl⟩) ?_⟩
  intro st hst
  rcases List.mem_append.mp hst with hst | hst
  · obtain ⟨j, hj, rfl⟩ := List.mem_map.mp hst
    obtain ⟨hij, hjn⟩ := ht j hj
    constructor
    · intro hw
      have := (Segment.step_writes.mp hw).2.2
      omega
    · have hpage : (g.step elf j).page = g.vaddr / 4096 + j := g.pageAt_eq j
      simp only [Segment.pages] at hjn
      rcases hplace.aligned with hal | hsmall <;> omega
  · refine ⟨not_writes_of_later hsz hdisj hsegs ⟨hlo, hhi⟩ hst, ?_⟩
    intro hp
    obtain ⟨e, he, hmap⟩ := steps_page.mp ⟨st, hst, hp⟩
    obtain ⟨l₁, l₂, hlater⟩ := List.append_of_mem he
    have hplace' : Placeable (earlier ++ g :: l₁) e := h _ e l₂ (by simp [hsegs, hlater])
    exact hplace'.apart g (by simp) v ⟨hlo, hhi⟩ hmap

section

variable (hsz : ∀ g ∈ segs, g.filesz ≤ g.memsz) (hdisj : NonOverlapping segs)
  (hrun : AddressSpace.empty.run 4096 (steps elf segs) = some B)
  (hholds : ∀ g ∈ segs, ∀ v, g.Covers v → ∃ b, B v = .holds b)
  (hsegs : segs = earlier ++ g :: later)

include hsz hdisj hrun hholds hsegs

/-- Nothing writes the bytes past the file size. -/
theorem full_of_holds : g.filesz = g.memsz := by
  have hg : g ∈ segs := by simp [hsegs]
  by_contra hne
  have hlt : g.filesz < g.memsz := lt_of_le_of_ne (hsz g hg) hne
  obtain ⟨b, hb⟩ := hholds g hg (g.vaddr + g.filesz) ⟨by omega, by omega⟩
  have hin := (eq_of_run_holds hsz hdisj hrun hg ⟨by omega, by omega⟩ hb).1
  omega

omit hsz hdisj in
/-- A byte whose page a later step maps again is lost. -/
theorem not_remapped {L₁ L₂ : List (PageLoad UInt8)} (hsplit : steps elf segs = L₁ ++ L₂)
    (hv : g.Covers v) (hw : ∀ st ∈ L₂, ¬ st.Writes v) : ¬ ∃ st ∈ L₂, st.page = v / 4096 := by
  intro hp
  obtain ⟨b, hb⟩ := hholds g (by simp [hsegs]) v hv
  rw [hsplit] at hrun
  rw [AddressSpace.run_stale hrun hw hp] at hb
  exact absurd hb (by simp)

/-- The second page of an unaligned segment takes bytes of the first. -/
theorem aligned_of_holds : g.vaddr % 4096 = 0 ∨ g.memsz ≤ 4096 := by
  by_contra hne
  rw [not_or] at hne
  have hcov : g.Covers (g.vaddr + 4095) := ⟨by omega, by omega⟩
  have hpages : 1 < g.pages := by
    unfold Segment.pages
    omega
  obtain ⟨s, t, hsplit, -, ht⟩ := steps_split elf hsegs hpages
  have hlate : ∀ j, 1 ≤ j → ¬ (g.step elf j).Writes (g.vaddr + 4095) := by
    intro j hj hw
    have := (Segment.step_writes.mp hw).2.2
    omega
  apply not_remapped hrun hholds hsegs hsplit hcov
  · intro st hst
    rcases List.mem_cons.mp hst with rfl | hst
    · exact hlate 1 le_rfl
    · rcases List.mem_append.mp hst with hst | hst
      · obtain ⟨j, hj, rfl⟩ := List.mem_map.mp hst
        exact hlate j (ht j hj).1.le
      · exact not_writes_of_later hsz hdisj hsegs hcov hst
  · refine ⟨g.step elf 1, List.mem_cons_self .., ?_⟩
    have hpage : (g.step elf 1).page = g.vaddr / 4096 + 1 := g.pageAt_eq 1
    omega

/-- A segment that takes a page takes the bytes an earlier one has there. -/
theorem apart_of_holds {e : Segment} (he : e ∈ earlier) (hv : e.Covers v) :
    ¬ g.Maps (v / 4096) := by
  intro hmap
  obtain ⟨l₁, l₂, hearlier⟩ := List.append_of_mem he
  have hsegs' : segs = l₁ ++ e :: (l₂ ++ g :: later) := by simp [hsegs, hearlier]
  have hsplit : steps elf segs = steps elf (l₁ ++ e :: l₂) ++ steps elf (g :: later) := by
    rw [hsegs, hearlier, steps_append]
  apply not_remapped hrun hholds hsegs' hsplit hv
  · intro st hst
    apply not_writes_of_later hsz hdisj hsegs' hv
    rw [steps_append]
    exact List.mem_append_right _ hst
  · exact steps_page.mpr ⟨g, List.mem_cons_self .., hmap⟩

/-- The steps of a segment fault unless the pages they write are mapped by then. -/
private theorem backed_of_holds (hv : g.Covers v) :
    g.Maps (v / 4096) ∨ ∃ e ∈ earlier, e.Maps (v / 4096) := by
  have hfull := full_of_holds hsz hdisj hrun hholds hsegs
  have hi := hv.step_lt
  obtain ⟨s, t, hsplit, hs, -⟩ := steps_split elf hsegs hi
  obtain ⟨hlo, hhi⟩ := hv
  rw [hsplit] at hrun
  have hown : ∀ j < g.pages, v / 4096 = (g.step elf j).page → g.Maps (v / 4096) :=
    fun j hj hp => (g.maps_iff _).mpr ⟨j, hj, hp.symm⟩
  rcases AddressSpace.mapped_of_run hrun (Segment.step_writes.mpr ⟨hlo, by omega, rfl⟩) with
    hp | hempty | ⟨st, hst, hp⟩
  · exact Or.inl (hown _ hi hp)
  · exact absurd rfl hempty
  · rcases List.mem_append.mp hst with hst | hst
    · exact Or.inr (steps_page.mp ⟨st, hst, hp⟩)
    · obtain ⟨j, hj, rfl⟩ := List.mem_map.mp hst
      exact Or.inl (hown j ((hs j hj).trans hi) hp.symm)

end

/-- Loading leaves a file byte at every address of every segment exactly for loadable
programs. -/
theorem holds_iff_loadable (hsz : ∀ g ∈ segs, g.filesz ≤ g.memsz) (hdisj : NonOverlapping segs) :
    (∃ B, AddressSpace.empty.run 4096 (steps elf segs) = some B ∧
      ∀ g ∈ segs, ∀ v, g.Covers v → ∃ b, B v = .holds b) ↔ Loadable segs := by
  constructor
  · rintro ⟨B, hrun, hholds⟩ earlier g later hsegs
    exact ⟨full_of_holds hsz hdisj hrun hholds hsegs,
      aligned_of_holds hsz hdisj hrun hholds hsegs,
      fun e he v hv => apart_of_holds hsz hdisj hrun hholds hsegs he hv,
      fun v hv => backed_of_holds hsz hdisj hrun hholds hsegs hv⟩
  · intro h
    obtain ⟨B, hrun⟩ := h.run
    exact ⟨B, hrun, fun g hg v hv => h.holds hsz hdisj hrun hg hv⟩

end LionOS.User
