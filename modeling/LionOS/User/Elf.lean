import LionOS.Lib.Memory

/-!
# The user program's ELF image

The two parse helpers of the loader: the entry point of the file header, and the
loadable segments of the program-header table. The table may start anywhere and
have any stride; the scan ends at the first header that does not fit in the file.

The image is built with overflow checks, so an address sum that does not fit a
machine word stops the kernel.
-/

namespace LionOS.User

open Lib

/-- Why the kernel stops: a failed `expect`, an arithmetic overflow or a page fault. -/
inductive Halt where
  | overflow
  | noFreeRegion
  | noEntryPoint
  | outOfFrames
  | mapFailed
  | pageFault
  deriving DecidableEq, Repr

/-- A sequence of two computations succeeds when both do. -/
theorem bind_eq_ok {ε : Type*} {α β : Type} {x : Except ε α} {f : α → Except ε β} {b : β} :
    x >>= f = .ok b ↔ ∃ a, x = .ok a ∧ f a = .ok b := by
  cases x with
  | error e => simp [bind, Except.bind]
  | ok a => simp [bind, Except.bind]

/-- A sum of machine words, which must fit one. -/
def checked (n : Nat) : Except Halt Nat := if n < 2 ^ 64 then .ok n else .error .overflow

theorem checked_eq_ok {n k : Nat} (h : checked n = .ok k) : n < 2 ^ 64 ∧ k = n := by
  unfold checked at h
  split at h
  next hn => exact ⟨hn, (Except.ok.inj h).symm⟩
  next => exact absurd h (by simp)

theorem checked_of_lt {n : Nat} (h : n < 2 ^ 64) : checked n = .ok n := if_pos h

/-- A byte slice: the memory from its pointer on, and its length. The bytes past the
length are whatever lies behind the slice. -/
structure Slice where
  mem : Mem
  len : Nat
  /-- No object is longer than half the address space. -/
  len_lt : len < 2 ^ 63

/-- Segment flag: writable. -/
def segWrite : Nat := 2

/-- Program-header type of a loadable segment. -/
def ptLoad : Nat := 1

/-- One loadable segment to place in the user address space. -/
structure Segment where
  vaddr : Nat
  fileOff : Nat
  filesz : Nat
  memsz : Nat
  flags : Nat
  deriving DecidableEq, Repr

/-- The segment is writable data. -/
def Segment.writable (g : Segment) : Bool := g.flags &&& segWrite != 0

/-- The slice starts with the ELF magic. -/
def hasMagic (elf : Slice) : Bool :=
  elf.mem 0 == 0x7F && elf.mem 1 == 0x45 && elf.mem 2 == 0x4C && elf.mem 3 == 0x46

/-- The entry point of a 64-bit little-endian ELF file. -/
def entryPoint (elf : Slice) : Option Nat :=
  if elf.len < 64 || !hasMagic elf || elf.mem 4 != 2 || elf.mem 5 != 1 then none
  else some (read64 elf.mem 24)

/-- The segment described by the program header at `off`. -/
def segmentAt (elf : Slice) (off : Nat) : Segment where
  vaddr := read64 elf.mem (off + 16)
  fileOff := read64 elf.mem (off + 8)
  filesz := read64 elf.mem (off + 32)
  memsz := read64 elf.mem (off + 40)
  flags := readLE elf.mem (off + 4) 4

/-- The loop of `load_segments` with `left` headers to go, from header `i` on. -/
def loadHeaders (elf : Slice) (phoff phentsize : Nat) :
    (left i : Nat) → (n : Nat) → List Segment → Except Halt (Nat × List Segment)
  | 0, _, n, out => .ok (n, out)
  | left + 1, i, n, out => do
    let off ← checked (phoff + i * phentsize)
    let stop ← checked (off + 56)
    if elf.len < stop then .ok (n, out)
    else if readLE elf.mem off 4 ≠ ptLoad then
      loadHeaders elf phoff phentsize left (i + 1) n out
    else loadHeaders elf phoff phentsize left (i + 1) (n + 1) (out ++ [segmentAt elf off])

/-- Collect every loadable segment behind `out`; returns the number found. -/
def loadSegments (elf : Slice) (out : List Segment) : Except Halt (Nat × List Segment) :=
  if elf.len < 64 || !hasMagic elf then .ok (0, out)
  else
    loadHeaders elf (read64 elf.mem 32) (readLE elf.mem 54 2) (readLE elf.mem 56 2) 0 0 out

/-- The number of pages the loader maps for a segment. -/
def Segment.pages (g : Segment) : Nat := (g.memsz + 4095) / 4096

/-- The page, relative to the base, that the loader maps in step `i` of a segment. -/
def Segment.pageAt (g : Segment) (i : Nat) : Nat := (g.vaddr + i * 4096) / 4096

theorem Segment.pageAt_eq (g : Segment) (i : Nat) : g.pageAt i = g.vaddr / 4096 + i := by
  unfold pageAt
  omega

/-- The segment's byte range contains `v`. -/
def Segment.Covers (g : Segment) (v : Nat) : Prop := g.vaddr ≤ v ∧ v < g.vaddr + g.memsz

/-- The loader maps page `p`, relative to the base, for the segment. -/
def Segment.Maps (g : Segment) (p : Nat) : Prop :=
  g.vaddr / 4096 ≤ p ∧ p < g.vaddr / 4096 + g.pages

instance (g : Segment) (p : Nat) : Decidable (g.Maps p) :=
  inferInstanceAs (Decidable (_ ∧ _))

theorem Segment.maps_iff (g : Segment) (p : Nat) : g.Maps p ↔ ∃ i < g.pages, g.pageAt i = p := by
  constructor
  · rintro ⟨hlo, hhi⟩
    refine ⟨p - g.vaddr / 4096, by omega, ?_⟩
    rw [pageAt_eq]
    omega
  · rintro ⟨i, hi, rfl⟩
    rw [Maps, pageAt_eq]
    omega

end LionOS.User
