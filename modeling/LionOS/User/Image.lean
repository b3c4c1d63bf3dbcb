import LionOS.User.Refinement
import LionOS.User.Supply

/-!
# The image in memory

Whatever the frames held before, the load loop leaves the image the segments describe
exactly when they lie at canonical addresses and the list is `Loadable`. Two memories
are enough to see why nothing else works: with all new frames full of ones, and again
with all of them full of twos, a byte that no file byte was written over cannot be
right both times.
-/

namespace LionOS.User

open Lib Paging Frames

variable {σ : Type} [FrameSource σ]

/-- The memory `m` differs from the machine's at most in frames that the allocator is
going to hand out. -/
def SameButNew (s : Machine σ) (m : Mem) : Prop :=
  ∀ x, (∀ n, x / 4096 ∉ handed n s.frames) → m x = s.mem x

/-- What the segments describe, as far as the file can: no two overlap, and the file part
of each is not longer than the segment and lies inside the file. -/
structure Describes (elf : Slice) (segs : List Segment) : Prop where
  disjoint : NonOverlapping segs
  filesz_le : ∀ g ∈ segs, g.filesz ≤ g.memsz
  in_file : ∀ g ∈ segs, g.fileOff + g.filesz ≤ elf.len

/-- Every byte of every segment is mapped and is its file byte, or zero past the file
part. -/
def HasImage (base : Nat) (elf : Slice) (segs : List Segment) (s : Machine σ) : Prop :=
  ∀ g ∈ segs, ∀ k < g.memsz, s.loadByte (base + g.vaddr + k) =
    some (if k < g.filesz then elf.mem (g.fileOff + k) else 0)

/-- The load loop goes through and builds the image, whatever the new frames held. -/
def BuildsImage (base : Nat) (elf : Slice) (segs : List Segment) (s : Machine σ) : Prop :=
  ∀ m, SameButNew s m → ∃ l, loadLoop base elf ⟨s.setMem m, [], 0⟩ segs = .ok l ∧
    HasImage base elf segs l.machine

/-- The frames are enough for the load, whatever they held. -/
def EnoughFrames (base : Nat) (elf : Slice) (segs : List Segment) (s : Machine σ) : Prop :=
  ∀ m, SameButNew s m → loadLoop base elf ⟨s.setMem m, [], 0⟩ segs ≠ .error .outOfFrames

/-- Four frames for each page are enough. -/
theorem enoughFrames_of_lasts {base : Nat} {elf : Slice} {segs : List Segment} {s : Machine σ}
    (h : Lasts (4 * pageCount segs) s.frames) : EnoughFrames base elf segs s := by
  intro m _
  have hlasts : Lasts (0 + 4 * pageCount segs) (s.setMem m).frames := by
    rwa [Nat.zero_add]
  exact (loadLoop_supplied (l := ⟨s.setMem m, [], 0⟩) hlasts).1

/-- Nothing is mapped in the window, and no huge page covers an address of it. -/
def Vacant (base : Nat) (W : Nat → Prop) (s : Machine σ) : Prop :=
  ∀ v, W v → s.lookup (path (base + v)) = (0, false)

/-- The addresses of the segments. -/
def CoveredBy (segs : List Segment) (v : Nat) : Prop := ∃ g ∈ segs, g.Covers v

theorem isWindow_of_lt {i : Fin 512} (hlt : i.val < 256) : IsWindow (i.val * 2 ^ 39) InRegion :=
  ⟨by omega, fun v hv => Or.inl (by omega)⟩

omit [FrameSource σ] in
/-- Nothing is mapped below a free top-level entry. -/
theorem vacant_of_free {s : Machine σ} {i : Fin 512} (hfree : s.findFreeTopIndex = some i) :
    Vacant (i.val * 2 ^ 39) InRegion s := by
  intro v hv
  have hindex : index4 (i.val * 2 ^ 39 + v) = i := by
    apply Fin.ext
    rw [index4, indexAt_val]
    have := i.isLt
    omega
  apply Machine.lookup_of_absent
  rw [hindex, Machine.absent_of_free hfree]

section

variable {base : Nat} {W : Nat → Prop} {s : Machine σ} (htree : s.Tree)
  (hsupply : Supplies s.frames fun f => f < 2 ^ 40 ∧ ¬ s.Reachable (f * 4096))

include hsupply in
/-- Changing the frames to come leaves the tables alone. -/
theorem SameButNew.sameTables {m : Mem} (hm : SameButNew s m) : s.SameTables m := by
  intro x hx
  apply hm
  intro n hn
  exact ((hsupply n).2 _ hn).2 hx

include htree hsupply in
/-- Before the load a vacant window is empty. -/
theorem shows_empty {m : Mem} (hvacant : Vacant base W s) (hm : SameButNew s m) :
    Shows base W m (fun f => ∃ n, f ∈ handed n s.frames) (fun _ => none) (s.setMem m)
      AddressSpace.empty := by
  have hsame : s.SameTables m := hm.sameTables hsupply
  have hs : s.Sound fun f => ∃ n, f ∈ handed n s.frames :=
    ⟨htree, fun n => ⟨(hsupply n).1, fun f hf =>
      ⟨((hsupply n).2 f hf).1, ((hsupply n).2 f hf).2, n, hf⟩⟩⟩
  refine ⟨hsame.sound hs fun f hf => ⟨hf, by simp, fun x _ => rfl⟩, ?_, ?_, ?_, ?_, ?_⟩
  · intro v hv _
    rw [hsame.lookup_eq rfl]
    exact hvacant v hv
  · intro v _ f hf
    exact absurd hf (by simp)
  · intro p f hf
    exact absurd hf (by simp)
  · intro p q f hf
    exact absurd hf (by simp)
  · intro v _
    exact rfl

end

/-! ## Loadable programs, and only they -/

open Classical in
/-- Fill the frames to come with a byte. -/
noncomputable def fillNew (s : Machine σ) (c : UInt8) : Mem :=
  fun x => if ∃ n, x / 4096 ∈ handed n s.frames then c else s.mem x

theorem sameButNew_fillNew (s : Machine σ) (c : UInt8) : SameButNew s (fillNew s c) := by
  intro x hx
  exact if_neg fun ⟨n, hn⟩ => hx n hn

/-- A stale byte is the byte its frame was filled with. -/
theorem fillNew_of_handed {s : Machine σ} {f off : Nat} (c : UInt8)
    (hf : ∃ n, f ∈ handed n s.frames) (hoff : off < 4096) : fillNew s c (f * 4096 + off) = c := by
  apply if_pos
  rwa [show (f * 4096 + off) / 4096 = f from by omega]

omit [FrameSource σ] in
/-- The segment's address `v`, as the offset of `HasImage`. -/
theorem HasImage.at {base : Nat} {elf : Slice} {segs : List Segment} {s : Machine σ} {g : Segment}
    {v : Nat} (h : HasImage base elf segs s) (hg : g ∈ segs) (hv : g.Covers v) :
    s.loadByte (base + v) =
      some (if v - g.vaddr < g.filesz then elf.mem (g.fileOff + (v - g.vaddr)) else 0) := by
  obtain ⟨hlo, hhi⟩ := hv
  rw [← h g hg (v - g.vaddr) (by omega), Nat.add_assoc, Nat.add_sub_cancel' hlo]

section

variable {base : Nat} {W : Nat → Prop} {s : Machine σ} {elf : Slice} {segs : List Segment}
  (htree : s.Tree)
  (hsupply : Supplies s.frames fun f => f < 2 ^ 40 ∧ ¬ s.Reachable (f * 4096))
  (hframes : EnoughFrames base elf segs s) (hd : Describes elf segs)

section

variable (hb : IsWindow base W) (hin : ∀ g ∈ segs, g.Within W) (hvacant : Vacant base W s)

include htree hsupply hframes hd hb hin hvacant

/-- With enough frames the load loop ends as the run of its steps does. -/
theorem loadLoop_outcome {m : Mem} (hm : SameButNew s m) :
    (loadLoop base elf ⟨s.setMem m, [], 0⟩ segs = .error .pageFault ∧
      AddressSpace.empty.run 4096 (steps elf segs) = none) ∨
    ∃ l frame B, loadLoop base elf ⟨s.setMem m, [], 0⟩ segs = .ok l ∧
      AddressSpace.empty.run 4096 (steps elf segs) = some B ∧
      Shows base W m (fun f => ∃ n, f ∈ handed n s.frames) frame l.machine B := by
  rcases loadLoop_agrees (l := ⟨s.setMem m, [], 0⟩) hb hin hd.filesz_le hd.in_file
    (shows_empty htree hsupply hvacant hm) with hdry | hagree
  · exact absurd hdry (hframes m hm)
  · exact hagree

/-- What a machine that builds the image shows when the new frames are filled with `c`:
a stale address of a segment reads `c`. -/
theorem BuildsImage.filled (hbuild : BuildsImage base elf segs s) (c : UInt8) :
    ∃ B, AddressSpace.empty.run 4096 (steps elf segs) = some B ∧
      ∀ g ∈ segs, ∀ v, g.Covers v → B v ≠ .unmapped ∧ (B v = .stale →
        c = if v - g.vaddr < g.filesz then elf.mem (g.fileOff + (v - g.vaddr)) else 0) := by
  obtain ⟨l, hok, himage⟩ := hbuild _ (sameButNew_fillNew s c)
  rcases loadLoop_outcome htree hsupply hframes hd hb hin hvacant (sameButNew_fillNew s c) with
    ⟨hfault, -⟩ | ⟨l', frame, B, hok', hB, hshow⟩
  · exact absurd (hok.symm.trans hfault) (by simp)
  obtain rfl := Except.ok.inj (hok.symm.trans hok')
  refine ⟨B, hB, fun g hg v hv => ?_⟩
  have hbyte := himage.at hg hv
  have hread := hshow.loadByte hb ((hin g hg).covers v hv)
  constructor
  · intro hcell
    rw [hcell] at hread
    exact absurd (hread.symm.trans hbyte) (by simp)
  · intro hcell
    rw [hcell] at hread
    obtain ⟨f, hf, hread⟩ := hread
    rw [fillNew_of_handed c hf (Nat.mod_lt _ (by omega))] at hread
    exact Option.some.inj (hread.symm.trans hbyte)

/-- A program whose image is built, whatever the new frames held, is loadable. -/
theorem BuildsImage.loadable (hbuild : BuildsImage base elf segs s) : Loadable segs := by
  obtain ⟨B, hB, hone⟩ := hbuild.filled htree hsupply hframes hd hb hin hvacant 1
  obtain ⟨B', hB', htwo⟩ := hbuild.filled htree hsupply hframes hd hb hin hvacant 2
  obtain rfl := Option.some.inj (hB.symm.trans hB')
  refine (holds_iff_loadable hd.filesz_le hd.disjoint).mp ⟨B, hB, fun g hg v hv => ?_⟩
  cases hcell : B v with
  | unmapped => exact absurd hcell (hone g hg v hv).1
  | stale =>
    have h₁ := (hone g hg v hv).2 hcell
    have h₂ := (htwo g hg v hv).2 hcell
    exact absurd (h₁.trans h₂.symm) (by decide)
  | holds b => exact ⟨b, rfl⟩

/-- The image of a loadable program is built. -/
theorem Loadable.buildsImage (hload : Loadable segs) : BuildsImage base elf segs s := by
  intro m hm
  obtain ⟨B, hB⟩ : ∃ B, AddressSpace.empty.run 4096 (steps elf segs) = some B := hload.run
  rcases loadLoop_outcome htree hsupply hframes hd hb hin hvacant hm with
    ⟨-, hnone⟩ | ⟨l, frame, B', hok, hB', hshow⟩
  · exact absurd (hB.symm.trans hnone) (by simp)
  obtain rfl := Option.some.inj (hB.symm.trans hB')
  refine ⟨l, hok, fun g hg k hk => ?_⟩
  have hv : g.Covers (g.vaddr + k) := ⟨by omega, by omega⟩
  obtain ⟨b, hcell⟩ := hload.holds hd.filesz_le hd.disjoint hB hg hv
  obtain ⟨hk', rfl⟩ := eq_of_run_holds hd.filesz_le hd.disjoint hB hg hv hcell
  have hread := hshow.loadByte hb ((hin g hg).covers _ hv)
  rw [hcell] at hread
  rw [Nat.add_sub_cancel_left] at hk' hread
  rw [Nat.add_assoc, if_pos hk']
  exact hread

end

/-- A load that goes through has added up the end of every segment. -/
private theorem stop_lt_of_loadLoop {l l' : Loader σ} (h : loadLoop base elf l segs = .ok l') :
    ∀ g ∈ segs, g.vaddr + g.memsz < 2 ^ 64 := by
  induction segs generalizing l with
  | nil => simp
  | cons e segs ih =>
    obtain ⟨l₁, h₁, h⟩ := bind_eq_ok.mp h
    obtain ⟨-, -, h₁⟩ := bind_eq_ok.mp h₁
    obtain ⟨l₂, -, h₁⟩ := bind_eq_ok.mp h₁
    obtain ⟨stop, hstop, -⟩ := bind_eq_ok.mp h₁
    intro g hg
    rcases List.mem_cons.mp hg with rfl | hg
    · exact (checked_eq_ok hstop).1
    · exact ih h g hg

/-- What is read after the load was read at canonical addresses. -/
theorem BuildsImage.within (hbuild : BuildsImage base elf segs s) :
    ∀ g ∈ segs, g.Within fun v => Canonical (base + v) := by
  obtain ⟨l, hok, himage⟩ := hbuild s.mem fun _ _ => rfl
  intro g hg
  refine ⟨fun v hv => ?_, stop_lt_of_loadLoop hok g hg⟩
  have hbyte := himage.at hg hv
  by_contra hbad
  rw [Machine.loadByte, Machine.physical, if_pos hbad] at hbyte
  exact absurd hbyte (by simp)

include htree hsupply hframes hd in
/-- **The loader builds the image of loadable programs, and of no others.** Where nothing is
mapped at the addresses of the segments, with tables that form a tree and an allocator
that hands out different frames of the 52-bit physical memory, none of them a table, and
enough of them, the load loop turns segments into the image they describe, whatever the
frames held before, if and only if their addresses are canonical, their ends are machine
words and they are loadable. -/
theorem buildsImage_iff_loadable (hal : base % 4096 = 0)
    (hvacant : Vacant base (CoveredBy segs) s) :
    BuildsImage base elf segs s ↔
      (∀ g ∈ segs, g.Within fun v => Canonical (base + v)) ∧ Loadable segs := by
  have hwindow : (∀ g ∈ segs, g.Within fun v => Canonical (base + v)) →
      IsWindow base (CoveredBy segs) ∧ ∀ g ∈ segs, g.Within (CoveredBy segs) := by
    intro hw
    refine ⟨⟨hal, ?_⟩, fun g hg => ⟨fun v hv => ⟨g, hg, hv⟩, (hw g hg).stop_lt⟩⟩
    rintro v ⟨g, hg, hv⟩
    exact (hw g hg).covers v hv
  constructor
  · intro hbuild
    obtain ⟨hb, hin⟩ := hwindow hbuild.within
    exact ⟨hbuild.within, hbuild.loadable htree hsupply hframes hd hb hin hvacant⟩
  · rintro ⟨hw, hload⟩
    obtain ⟨hb, hin⟩ := hwindow hw
    exact hload.buildsImage htree hsupply hframes hd hb hin hvacant

end

/-! ## A program of two bytes -/

/-- An ELF file with one text segment, whose file part is the two bytes `nop` and `ret`. -/
def textElf (vaddr memsz : Nat) : Slice where
  mem := [(0, 4, 0x464C457F), (4, 1, 2), (5, 1, 1), (32, 8, 64), (54, 2, 56), (56, 2, 1),
    (64, 4, 1), (68, 4, 5), (72, 8, 120), (80, 8, vaddr), (96, 8, 2), (104, 8, memsz),
    (120, 2, 0xC390)].foldl (fun m f => writeLE m f.1 f.2.1 f.2.2) fun _ => 0
  len := 122
  len_lt := by decide

/-- The segment of `textElf`. -/
def textSegment (vaddr memsz : Nat) : Segment := ⟨vaddr, 120, 2, memsz, 5⟩

/-- A machine with a table in its first top-level entry. The frames from 3 on are free,
and full of stale bytes. -/
def bootMachine : Machine FrameAllocator where
  mem := fun x =>
    if x = 0x1000 then 0x03 else if x = 0x1001 then 0x20 else if 0x3000 ≤ x then 0xAA else 0
  frames := FrameAllocator.empty.install [⟨3, 20⟩] (by decide)
  cr3 := 0x1000

theorem bootMachine_free : bootMachine.findFreeTopIndex = some 1 := by
  decide +kernel

theorem bootMachine_freeList :
    freeList bootMachine.frames.active = (List.range 20).map (· + 3) := by
  decide

theorem bootMachine_handed {f n : Nat} (h : f ∈ handed n bootMachine.frames) :
    3 ≤ f ∧ f < 23 := by
  rw [handed_frameAllocator, bootMachine_freeList] at h
  obtain ⟨k, hk, rfl⟩ := List.mem_map.mp (List.mem_of_mem_take h)
  have := List.mem_range.mp hk
  omega

theorem bootMachine_lasts {n : Nat} (h : n ≤ 20) : Lasts n bootMachine.frames := by
  rw [Lasts, handed_frameAllocator, bootMachine_freeList]
  simp [h]

/-- Everything is zero in the tables but the first entry of the root. -/
theorem bootMachine_entries {t : Nat} {i : Fin 512} (ht : t = 0x1000 ∧ i ≠ 0 ∨ t = 0x2000) :
    entries bootMachine.mem t i = 0 := by
  have hi := i.isLt
  have hpos : i ≠ 0 → 0 < i.val := fun h => Nat.pos_of_ne_zero fun h0 => h (Fin.ext h0)
  have hz : read64 bootMachine.mem (t + 8 * i) = read64 (fun _ => 0) (t + 8 * i) := by
    apply read64_congr
    intro x hx hx'
    have hne : x ≠ 0x1000 ∧ x ≠ 0x1001 ∧ ¬ 0x3000 ≤ x := by
      rcases ht with ⟨rfl, h0⟩ | rfl
      · have := hpos h0
        omega
      · omega
    simp only [bootMachine, hne, if_false]
  exact hz.trans (read64_zero _)

/-- The tables are the root and the one below its first entry. -/
theorem node_bootMachine {q : List (Fin 512)} {t : Nat}
    (h : format.node (entries bootMachine.mem) 0 bootMachine.pml4 q = some t) :
    (q = [] ∧ t = 0x1000) ∨ q = [0] ∧ t = 0x2000 := by
  have hroot : bootMachine.pml4 = 0x1000 := by decide
  have hleaf : ∀ d i, format.child (entries bootMachine.mem) d 0x2000 i = none := by
    intro d i
    simp [Format.child, format, decode, bootMachine_entries (i := i) (Or.inr rfl)]
  cases q with
  | nil => exact Or.inl ⟨rfl, (Option.some.inj h).symm.trans hroot⟩
  | cons i q =>
    right
    rw [Format.node, hroot] at h
    by_cases hi : i = 0
    · subst hi
      have hchild : format.child (entries bootMachine.mem) 0 0x1000 0 = some 0x2000 := by
        decide
      rw [hchild, Option.bind_some] at h
      cases q with
      | nil => exact ⟨rfl, (Option.some.inj h).symm⟩
      | cons j q => simp [Format.node, hleaf] at h
    · have hz := bootMachine_entries (t := 0x1000) (Or.inl ⟨rfl, hi⟩)
      simp [Format.child, format, decode, hz] at h

theorem bootMachine_tree : bootMachine.Tree := by
  intro p q t _ _ hp hq
  rcases node_bootMachine hp with ⟨rfl, rfl⟩ | ⟨rfl, rfl⟩ <;>
    rcases node_bootMachine hq with ⟨rfl, ht⟩ | ⟨rfl, ht⟩
  · rfl
  · exact absurd ht (by decide)
  · exact absurd ht (by decide)
  · rfl

theorem bootMachine_supplies :
    Supplies bootMachine.frames fun f => f < 2 ^ 40 ∧ ¬ bootMachine.Reachable (f * 4096) := by
  apply supplies_frameAllocator
  · rw [bootMachine_freeList]
    decide
  · intro f hf
    rw [bootMachine_freeList] at hf
    obtain ⟨k, hk, rfl⟩ := List.mem_map.mp hf
    have hk' := List.mem_range.mp hk
    constructor
    · omega
    · rintro ⟨q, -, hn⟩
      rcases node_bootMachine hn with ⟨-, ht⟩ | ⟨-, ht⟩
      · omega
      · omega

theorem textSegment_describes {vaddr memsz : Nat} (h : 2 ≤ memsz) :
    Describes (textElf vaddr memsz) [textSegment vaddr memsz] := by
  refine ⟨List.pairwise_singleton .., ?_, ?_⟩
  · intro g hg
    rw [List.mem_singleton.mp hg]
    exact h
  · intro g hg
    rw [List.mem_singleton.mp hg]
    exact le_rfl

/-- Two bytes on a page of their own are loadable. -/
theorem textSegment_loadable {vaddr : Nat} (h : vaddr % 4096 = 0) :
    Loadable [textSegment vaddr 2] := by
  intro earlier g later hsegs
  obtain ⟨rfl, rfl, rfl⟩ : earlier = [] ∧ g = textSegment vaddr 2 ∧ later = [] := by
    cases earlier with
    | nil => simpa using hsegs.symm
    | cons e earlier => simp at hsegs
  refine ⟨rfl, Or.inl h, by simp, fun v hv => Or.inl ?_⟩
  simp only [Segment.Covers, Segment.Maps, Segment.pages, textSegment] at hv ⊢
  omega

/-- Nothing is mapped below the other top-level entries. -/
theorem bootMachine_lookup {v : Nat} (h : v / 2 ^ 39 % 512 ≠ 0) :
    bootMachine.lookup (path v) = (0, false) := by
  have hindex : index4 v ≠ 0 := by
    intro h0
    have hval := congrArg Fin.val h0
    rw [index4, indexAt_val] at hval
    exact h hval
  apply Machine.lookup_of_absent
  rw [show tableRead bootMachine.mem bootMachine.pml4 (index4 v) = 0 from
    bootMachine_entries (Or.inl ⟨by decide, hindex⟩)]
  rfl

/-- Nothing is mapped in the region of the base, nor in that of 0x18000000000. -/
theorem bootMachine_vacant {vaddr memsz : Nat}
    (h : vaddr + memsz ≤ 2 ^ 39 ∨ 2 ^ 40 ≤ vaddr ∧ vaddr + memsz ≤ 2 ^ 40 + 2 ^ 39) :
    Vacant 0x8000000000 (CoveredBy [textSegment vaddr memsz]) bootMachine := by
  rintro v ⟨g, hg, hlo, hhi⟩
  obtain rfl := List.mem_singleton.mp hg
  change vaddr ≤ v at hlo
  change v < vaddr + memsz at hhi
  apply bootMachine_lookup
  omega

theorem bootMachine_enough {vaddr memsz : Nat} (h : memsz ≤ 4096) :
    EnoughFrames 0x8000000000 (textElf vaddr memsz) [textSegment vaddr memsz] bootMachine := by
  apply enoughFrames_of_lasts
  apply bootMachine_lasts
  simp only [pageCount, Segment.pages, textSegment, List.map_cons, List.map_nil, List.sum_cons,
    List.sum_nil]
  omega

/-- The image of the two bytes is built, in the region and at 1 TiB above its base. -/
theorem buildsImage_text :
    BuildsImage 0x8000000000 (textElf 0x1000 2) [textSegment 0x1000 2] bootMachine ∧
      BuildsImage 0x8000000000 (textElf 0x10000000000 2) [textSegment 0x10000000000 2]
        bootMachine := by
  constructor
  · refine (buildsImage_iff_loadable bootMachine_tree bootMachine_supplies
      (bootMachine_enough (by decide)) (textSegment_describes le_rfl) (by decide)
      (bootMachine_vacant (by decide))).mpr ⟨?_, textSegment_loadable (by decide)⟩
    intro g hg
    rw [List.mem_singleton.mp hg]
    refine ⟨fun v hv => Or.inl ?_, by decide⟩
    have hlt : v < 0x1002 := hv.2
    omega
  · refine (buildsImage_iff_loadable bootMachine_tree bootMachine_supplies
      (bootMachine_enough (by decide)) (textSegment_describes le_rfl) (by decide)
      (bootMachine_vacant (by decide))).mpr ⟨?_, textSegment_loadable (by decide)⟩
    intro g hg
    rw [List.mem_singleton.mp hg]
    refine ⟨fun v hv => Or.inl ?_, by decide⟩
    have hlt : v < 0x10000000002 := hv.2
    omega

/-- One byte past the file part, the loader leaves what the frame held. -/
theorem stale_byte_past_file_part :
    Describes (textElf 0x1000 3) [textSegment 0x1000 3] ∧
      (∃ l, loadLoop 0x8000000000 (textElf 0x1000 3) ⟨bootMachine, [], 0⟩
          [textSegment 0x1000 3] = .ok l ∧ l.machine.loadByte 0x8000001002 = some 0xAA) ∧
      ¬ BuildsImage 0x8000000000 (textElf 0x1000 3) [textSegment 0x1000 3] bootMachine := by
  have hd : Describes (textElf 0x1000 3) [textSegment 0x1000 3] :=
    textSegment_describes (by decide)
  have hb : IsWindow 0x8000000000 InRegion := isWindow_of_lt (i := 1) (by decide)
  have hvacant : Vacant 0x8000000000 InRegion bootMachine :=
    vacant_of_free (i := 1) bootMachine_free
  have hin : ∀ g ∈ [textSegment 0x1000 3], g.Within InRegion := fun g hg =>
    Segment.within_of_le (List.mem_singleton.mp hg ▸ by decide)
  have hself : SameButNew bootMachine bootMachine.mem := fun _ _ => rfl
  have hsteps : steps (textElf 0x1000 3) [textSegment 0x1000 3] =
      [(textSegment 0x1000 3).step (textElf 0x1000 3) 0] := rfl
  obtain ⟨B, hB⟩ : ∃ B, AddressSpace.empty.run 4096
      (steps (textElf 0x1000 3) [textSegment 0x1000 3]) = some B := by
    apply AddressSpace.run_eq_some
    intro st hst v hw
    rw [hsteps] at hst
    obtain rfl := List.mem_singleton.mp hst
    obtain ⟨hlo, hhi, -⟩ := Segment.step_writes.mp hw
    left
    simp only [Segment.step, Segment.pageAt, textSegment] at hlo hhi ⊢
    omega
  have hcell : B 0x1002 = .stale := by
    rw [AddressSpace.run_of_not_writes hB]
    · exact if_pos ⟨_, List.mem_singleton_self _, rfl⟩
    · intro st hst
      rw [hsteps] at hst
      obtain rfl := List.mem_singleton.mp hst
      decide
  rcases loadLoop_outcome bootMachine_tree bootMachine_supplies (bootMachine_enough (by decide)) hd
    hb hin hvacant hself with ⟨-, hnone⟩ | ⟨l, frame, B', hok, hB', hshow⟩
  · exact absurd (hB.symm.trans hnone) (by simp)
  obtain rfl := Option.some.inj (hB.symm.trans hB')
  have hread := hshow.loadByte hb (v := 0x1002) (by decide)
  rw [hcell] at hread
  obtain ⟨f, ⟨n, hf⟩, hread⟩ := hread
  have hstale : bootMachine.mem (f * 4096 + 0x1002 % 4096) = 0xAA := by
    have := (bootMachine_handed hf).1
    have hne : f * 4096 + 0x1002 % 4096 ≠ 0x1000 ∧ f * 4096 + 0x1002 % 4096 ≠ 0x1001 ∧
        0x3000 ≤ f * 4096 + 0x1002 % 4096 := by omega
    simp only [bootMachine, hne, if_false, if_true]
  rw [hstale] at hread
  refine ⟨hd, ⟨l, hok, hread⟩, fun hbuild => ?_⟩
  obtain ⟨l', hok', himage⟩ := hbuild bootMachine.mem hself
  obtain rfl := Except.ok.inj (hok.symm.trans hok')
  have hzero := himage _ (List.mem_singleton_self _) 2 (by decide)
  exact absurd (hread.symm.trans hzero) (by decide)

end LionOS.User
