import LionOS.User.UserRange

/-!
# Where the loader maps and what it copies

The load loop maps one page for each turn and copies that page's share of the file.
The program headers say where both lie, and nothing checks them. On every machine the
loop stays in the region `bring_up` chose, and in the file, when every segment with pages
has them inside the first 512 GiB above address zero and its file part inside the file.
-/

namespace LionOS.User

open Lib Paging Frames

variable {σ : Type} [FrameSource σ]

/-- The loop comes to page `i` of segment `g`, having gone through with loader `l`. -/
def ComesTo (base : Nat) (elf : Slice) (segs : List Segment) (s : Machine σ) (g : Segment)
    (i : Nat) (l : Loader σ) : Prop :=
  ∃ before after l₀, segs = before ++ g :: after ∧ loadLoop base elf ⟨s, [], 0⟩ before = .ok l₀ ∧
    g.memsz + 4095 < 2 ^ 64 ∧ i < g.pages ∧ loadPages base elf g l₀ i = .ok l

/-- The loop maps address `v` for page `i` of segment `g`. -/
def MapsAt (base : Nat) (elf : Slice) (segs : List Segment) (s : Machine σ) (g : Segment)
    (i v : Nat) : Prop :=
  v = base + g.vaddr + i * 4096 ∧ v < 2 ^ 64 ∧
    ∃ l s', ComesTo base elf segs s g i l ∧ mapNew g.writable v l.machine = .ok s'

/-- The loop copies `n` bytes at offset `off` of the file. -/
def CopiesAt (base : Nat) (elf : Slice) (segs : List Segment) (s : Machine σ)
    (off n : Nat) : Prop :=
  ∃ g i v, MapsAt base elf segs s g i v ∧ off = g.fileOff + i * 4096 ∧ off < 2 ^ 64 ∧
    n = min (g.filesz - i * 4096) 4096 ∧ 0 < n

/-- The load loop stays in the region at `base` and in the file, and no sum overflows. -/
structure StaysInside (base : Nat) (elf : Slice) (segs : List Segment) (s : Machine σ) :
    Prop where
  maps : ∀ g i v, MapsAt base elf segs s g i v →
    base ≤ v / 4096 * 4096 ∧ v / 4096 * 4096 + 4096 ≤ base + 2 ^ 39
  copies : ∀ off n, CopiesAt base elf segs s off n → off + n ≤ elf.len
  entry : ∀ e, entryPoint elf = some e → base + e < 2 ^ 64
  sums : loadLoop base elf ⟨s, [], 0⟩ segs ≠ .error .overflow

/-- Page `i` of the segment lies in the first 512 GiB, its file offset is a machine word, and
its share of the file part lies in a file of `len` bytes. -/
structure Segment.PageFits (len : Nat) (g : Segment) (i : Nat) : Prop where
  page : g.vaddr / 4096 + i < 2 ^ 27
  word : g.fileOff + i * 4096 < 2 ^ 64
  share : 0 < min (g.filesz - i * 4096) 4096 →
    g.fileOff + i * 4096 + min (g.filesz - i * 4096) 4096 ≤ len

/-- A segment without pages, or one whose pages lie in the first 512 GiB, whose last page
has a file offset that is a machine word, and whose file part, as far as its pages
reach, lies in a file of `len` bytes. -/
def Segment.Fits (len : Nat) (g : Segment) : Prop :=
  g.memsz = 0 ∨ g.vaddr / 4096 + g.pages ≤ 2 ^ 27 ∧ g.fileOff + (g.pages - 1) * 4096 < 2 ^ 64 ∧
    (g.filesz = 0 ∨ g.fileOff + min g.filesz (g.pages * 4096) ≤ len)

instance (len : Nat) (g : Segment) : Decidable (g.Fits len) :=
  inferInstanceAs (Decidable (_ ∨ _ ∧ _ ∧ (_ ∨ _)))

/-- All segments fit, and the entry point is a machine word above the base. -/
def ProgramFits (base : Nat) (elf : Slice) (segs : List Segment) : Prop :=
  (∀ e, entryPoint elf = some e → base + e < 2 ^ 64) ∧ ∀ g ∈ segs, g.Fits elf.len

/-- Each page of a segment that fits does. -/
theorem Segment.Fits.pageFits {len i : Nat} {g : Segment} (h : g.Fits len) (hi : i < g.pages) :
    g.PageFits len i := by
  have hpages : g.pages = (g.memsz + 4095) / 4096 := rfl
  rcases h with h0 | ⟨hregion, hword, hfile⟩
  · omega
  · have hstep : i * 4096 ≤ (g.pages - 1) * 4096 := by omega
    refine ⟨by omega, (Nat.add_le_add_left hstep _).trans_lt hword, fun hn => ?_⟩
    rcases hfile with h0 | hfile <;> omega

private theorem loadHeaders_vaddr {elf : Slice} {phoff phentsize left i n n' : Nat}
    {out segs : List Segment}
    (h : loadHeaders elf phoff phentsize left i n out = .ok (n', segs))
    (hout : ∀ g ∈ out, g.vaddr < 2 ^ 64) : ∀ g ∈ segs, g.vaddr < 2 ^ 64 := by
  induction left generalizing i n out with
  | zero =>
    obtain ⟨-, rfl⟩ := Prod.mk.inj (Except.ok.inj h)
    exact hout
  | succ left ih =>
    obtain ⟨off, -, h⟩ := bind_eq_ok.mp h
    obtain ⟨stop, -, h⟩ := bind_eq_ok.mp h
    split at h
    · obtain ⟨-, rfl⟩ := Prod.mk.inj (Except.ok.inj h)
      exact hout
    split at h
    · exact ih h hout
    · apply ih h
      intro g hg
      rcases List.mem_append.mp hg with hg | hg
      · exact hout g hg
      · rw [List.mem_singleton.mp hg]
        exact read64_lt ..

/-- The addresses of the headers are machine words. -/
theorem loadSegments_vaddr {elf : Slice} {n : Nat} {segs : List Segment}
    (h : loadSegments elf [] = .ok (n, segs)) : ∀ g ∈ segs, g.vaddr < 2 ^ 64 := by
  unfold loadSegments at h
  split at h
  · obtain ⟨-, rfl⟩ := Prod.mk.inj (Except.ok.inj h)
    simp
  · exact loadHeaders_vaddr h (by simp)

theorem bind_ne_overflow {α β : Type} {x : Except Halt α} {f : α → Except Halt β}
    (hx : x ≠ .error .overflow) (hf : ∀ a, f a ≠ .error .overflow) :
    x >>= f ≠ .error .overflow := by
  cases x with
  | error e => simpa [Bind.bind, Except.bind] using hx
  | ok a => exact hf a

theorem checked_bind_ne_overflow {β : Type} {n : Nat} {f : Nat → Except Halt β} (hn : n < 2 ^ 64)
    (hf : f n ≠ .error .overflow) : checked n >>= f ≠ .error .overflow := by
  rw [checked_of_lt hn]
  exact hf

theorem mapNew_ne_overflow (writable : Bool) (vaddr : Nat) (s : Machine σ) :
    mapNew writable vaddr s ≠ .error .overflow := by
  rw [mapNew_eq]
  split
  · simp
  split <;> simp

omit [FrameSource σ] in
private theorem copyBytes_ne_overflow (elf : Slice) (fileStart vaddr n : Nat) (s : Machine σ) :
    copyBytes elf fileStart vaddr n s ≠ .error .overflow := by
  unfold copyBytes
  split <;> simp

section

variable {base : Nat} {elf : Slice} {g : Segment} {l : Loader σ}

private theorem loadPage_ne_overflow {i : Nat} (hv : base + g.vaddr + i * 4096 < 2 ^ 64)
    (hf : g.fileOff + i * 4096 < 2 ^ 64) : loadPage base elf g l i ≠ .error .overflow := by
  apply checked_bind_ne_overflow hv
  apply bind_ne_overflow (mapNew_ne_overflow _ _ _)
  intro s
  apply checked_bind_ne_overflow hf
  apply bind_ne_overflow (copyBytes_ne_overflow _ _ _ _ _)
  intro s'
  simp

private theorem loadPages_ne_overflow {n : Nat}
    (h : ∀ i < n, base + g.vaddr + i * 4096 < 2 ^ 64 ∧ g.fileOff + i * 4096 < 2 ^ 64) :
    loadPages base elf g l n ≠ .error .overflow := by
  induction n with
  | zero => simp [loadPages]
  | succ n ih =>
    obtain ⟨hv, hf⟩ := h n (by omega)
    exact bind_ne_overflow (ih fun i hi => h i (by omega)) fun l' => loadPage_ne_overflow hv hf

private theorem loadSegment_ne_overflow (hbase : base < 2 ^ 47) (hv : g.vaddr < 2 ^ 64)
    (hfit : g.Fits elf.len) : loadSegment base elf l g ≠ .error .overflow := by
  have hpages := fun i => @Segment.Fits.pageFits _ i _ hfit
  have hend : g.memsz + 4095 < 2 ^ 64 ∧ g.vaddr + g.memsz < 2 ^ 64 := by
    rcases hfit with h0 | ⟨hregion, -, -⟩
    · omega
    · unfold Segment.pages at hregion
      omega
  apply checked_bind_ne_overflow hend.1
  refine bind_ne_overflow (loadPages_ne_overflow fun i hi => ?_) fun l' => ?_
  · obtain ⟨hregion, hf, -⟩ := hpages i hi
    exact ⟨by omega, hf⟩
  · apply checked_bind_ne_overflow hend.2
    simp

theorem loadLoop_ne_overflow {segs : List Segment} (hbase : base < 2 ^ 47)
    (hv : ∀ g ∈ segs, g.vaddr < 2 ^ 64) (hfit : ∀ g ∈ segs, g.Fits elf.len) :
    loadLoop base elf l segs ≠ .error .overflow := by
  induction segs generalizing l with
  | nil => simp [loadLoop]
  | cons g segs ih =>
    apply bind_ne_overflow
    · exact loadSegment_ne_overflow hbase (hv g (by simp)) (hfit g (by simp))
    · intro l'
      exact ih (fun g hg => hv g (by simp [hg])) fun g hg => hfit g (by simp [hg])

end

theorem ComesTo.mem {base i : Nat} {elf : Slice} {segs : List Segment} {s : Machine σ}
    {g : Segment} {l : Loader σ} (h : ComesTo base elf segs s g i l) : g ∈ segs ∧ i < g.pages := by
  obtain ⟨before, after, -, rfl, -, -, hi, -⟩ := h
  exact ⟨by simp, hi⟩

/-- A program that fits is loaded inside its region, whatever the machine. -/
theorem ProgramFits.staysInside {base : Nat} {elf : Slice} {segs : List Segment}
    (h : ProgramFits base elf segs) (hbase : base % 4096 = 0) (hlow : base < 2 ^ 47)
    (hv : ∀ g ∈ segs, g.vaddr < 2 ^ 64) (s : Machine σ) : StaysInside base elf segs s where
  maps := by
    rintro g i v ⟨rfl, -, l, -, hcomes, -⟩
    obtain ⟨hg, hi⟩ := hcomes.mem
    obtain ⟨hregion, -, -⟩ := (h.2 g hg).pageFits hi
    omega
  copies := by
    rintro off n ⟨g, i, v, ⟨-, -, l, -, hcomes, -⟩, rfl, -, rfl, hn⟩
    obtain ⟨hg, hi⟩ := hcomes.mem
    obtain ⟨-, -, hfile⟩ := (h.2 g hg).pageFits hi
    exact hfile hn
  entry := h.1
  sums := loadLoop_ne_overflow hlow hv h.2

theorem loadLoop_append {base : Nat} {elf : Slice} {l : Loader σ} (before after : List Segment) :
    loadLoop base elf l (before ++ after) =
      loadLoop base elf l before >>= fun l => loadLoop base elf l after := by
  induction before generalizing l with
  | nil => rfl
  | cons g before ih =>
    simp only [List.cons_append, loadLoop, bind_assoc]
    cases loadSegment base elf l g with
    | error e => rfl
    | ok l' => exact ih

end LionOS.User
