import LionOS.Frames.FrameAllocator
import LionOS.Lib.Bits
import LionOS.Lib.Memory

/-!
# Page tables

The four-level tables are frames of physical memory, read and written through the
physical-memory window: the byte at physical address `p` is the byte at
`p + offset`, so the window offset does not appear here. Entries and addresses are
64-bit words, kept as natural numbers.

The frame allocator is any source of frame numbers. A call that fails leaves the
tables it has linked so far in place, so every operation returns the machine
beside its result.
-/

namespace LionOS.Paging

open Lib Frames

/-- A nine-bit field of an address. -/
def indexAt (shift v : Nat) : Fin 512 :=
  ⟨(v >>> shift) &&& 0x1FF, by
    rw [show 0x1FF = 2 ^ 9 - 1 from rfl, Nat.and_two_pow_sub_one_eq_mod]
    exact Nat.mod_lt _ (by decide)⟩

/-- PML4 index (bits 39..47). -/
def index4 (v : Nat) : Fin 512 := indexAt 39 v

/-- PDPT index (bits 30..38). -/
def index3 (v : Nat) : Fin 512 := indexAt 30 v

/-- Page-directory index (bits 21..29). -/
def index2 (v : Nat) : Fin 512 := indexAt 21 v

/-- Page-table index (bits 12..20). -/
def index1 (v : Nat) : Fin 512 := indexAt 12 v

/-- Physical-address mask (bits 12..51). -/
def addrMask : Nat := 0x000FFFFFFFFFF000

namespace Pte

/-- The entry is in use. -/
def present : Nat := 1 <<< 0

/-- Writes are allowed. -/
def writable : Nat := 1 <<< 1

/-- User-mode accesses are allowed. -/
def user : Nat := 1 <<< 2

/-- The entry maps a huge page. -/
def huge : Nat := 1 <<< 7

/-- Instruction fetches are not allowed. -/
def nx : Nat := 1 <<< 63

end Pte

/-- Encode an entry that points at the table `addr`. -/
def entryPointer (addr : Nat) (present writable : Bool) : Nat :=
  let e := addr &&& addrMask
  let e := if present then e ||| Pte.present else e
  if writable then e ||| Pte.writable else e

/-- Encode a leaf entry that maps `frame`. -/
def entryPage (frame : Nat) (present writable user : Bool) : Nat :=
  let e := frame &&& addrMask
  let e := if present then e ||| Pte.present else e
  let e := if writable then e ||| Pte.writable else e
  if user then e ||| Pte.user else e

/-- Error from a page-table operation. -/
inductive MapError where
  | outOfFrames
  deriving DecidableEq, Repr

/-- A source of physical frame numbers. -/
class FrameSource (σ : Type*) where
  allocateFrame : σ → Option (Nat × σ)

instance : FrameSource FrameAllocator where
  allocateFrame := FrameAllocator.allocate

/-- Physical memory, the frame allocator and the page-table root. -/
structure Machine (σ : Type*) where
  mem : Mem
  frames : σ
  cr3 : Nat

/-- Read one entry of the table at `table`. -/
def tableRead (m : Mem) (table : Nat) (index : Fin 512) : Nat := read64 m (table + 8 * index)

/-- Write one entry of the table at `table`. -/
def tableWrite (m : Mem) (table : Nat) (index : Fin 512) (e : Nat) : Mem :=
  write64 m (table + 8 * index) e

/-- Store zero in the first `n` entries of the frame at `phys`. -/
def zeroEntries (m : Mem) (phys : Nat) : Nat → Mem
  | 0 => m
  | n + 1 => write64 (zeroEntries m phys n) (phys + 8 * n) 0

/-- Zero a freshly allocated table frame. -/
def zeroTable (m : Mem) (phys : Nat) : Mem := zeroEntries m phys 512

namespace Machine

variable {σ : Type*}

/-- Physical address of the current top-level table. -/
def pml4 (s : Machine σ) : Nat := s.cr3 &&& addrMask

/-- Replace physical memory. -/
def setMem (s : Machine σ) (m : Mem) : Machine σ := { s with mem := m }

@[simp] theorem setMem_mem (s : Machine σ) (m : Mem) : (s.setMem m).mem = m := rfl

@[simp] theorem setMem_frames (s : Machine σ) (m : Mem) : (s.setMem m).frames = s.frames := rfl

@[simp] theorem setMem_cr3 (s : Machine σ) (m : Mem) : (s.setMem m).cr3 = s.cr3 := rfl

@[simp] theorem setMem_pml4 (s : Machine σ) (m : Mem) : (s.setMem m).pml4 = s.pml4 := rfl

/-- Walk the current tables to the leaf entry of `virt`. -/
def translate (s : Machine σ) (virt : Nat) : Nat :=
  let pml4e := tableRead s.mem s.pml4 (index4 virt)
  if pml4e &&& Pte.present = 0 then 0
  else
    let pdpt := pml4e &&& addrMask
    let pdpte := tableRead s.mem pdpt (index3 virt)
    if pdpte &&& Pte.present = 0 then 0
    else if pdpte &&& Pte.huge ≠ 0 then pdpte
    else
      let pd := pdpte &&& addrMask
      let pde := tableRead s.mem pd (index2 virt)
      if pde &&& Pte.present = 0 then 0
      else if pde &&& Pte.huge ≠ 0 then pde
      else
        let pt := pde &&& addrMask
        tableRead s.mem pt (index1 virt)

/-- The lowest top-level index whose entry is not present. -/
def findFreeTopIndex (s : Machine σ) : Option (Fin 512) :=
  (List.finRange 512).find? fun i => tableRead s.mem s.pml4 i &&& Pte.present = 0

variable [FrameSource σ]

/-- Take a frame from the allocator. -/
def allocateFrame (s : Machine σ) : Option (Nat × Machine σ) :=
  match FrameSource.allocateFrame s.frames with
  | none => none
  | some (f, frames) => some (f, { s with frames := frames })

/-- Allocate one frame and return its physical address. -/
def framePhys (s : Machine σ) : Except MapError Nat × Machine σ :=
  match s.allocateFrame with
  | none => (.error .outOfFrames, s)
  | some (f, s) => (.ok (f * 4096), s)

/-- Allocate a zeroed table frame and return its physical address. -/
def allocTable (s : Machine σ) : Except MapError Nat × Machine σ :=
  match s.framePhys with
  | (.error e, s) => (.error e, s)
  | (.ok p, s) => (.ok p, s.setMem (zeroTable s.mem p))

/-- One level of the walk of `map_page_impl`: the table below an entry, allocated and
linked when the entry is not present. -/
def descend (user : Bool) (table : Nat) (index : Fin 512) (s : Machine σ) :
    Except MapError Nat × Machine σ :=
  let e := tableRead s.mem table index
  if e &&& Pte.present ≠ 0 then (.ok (e &&& addrMask), s)
  else
    match s.allocTable with
    | (.error err, s) => (.error err, s)
    | (.ok t, s) =>
      let ptr := entryPointer t true true ||| (if user then Pte.user else 0)
      (.ok t, s.setMem (tableWrite s.mem table index ptr))

/-- The leaf entry `map_page_impl` writes. -/
def leafEntry (phys : Nat) (user nx : Bool) : Nat :=
  let leaf := entryPage phys true true user
  if nx then leaf ||| Pte.nx else leaf

/-- Walk and populate the tables and write the leaf. -/
def mapPageImpl (s : Machine σ) (virt phys : Nat) (user nx : Bool) :
    Except MapError Unit × Machine σ :=
  match descend user s.pml4 (index4 virt) s with
  | (.error e, s) => (.error e, s)
  | (.ok pdpt, s) =>
    match descend user pdpt (index3 virt) s with
    | (.error e, s) => (.error e, s)
    | (.ok pd, s) =>
      match descend user pd (index2 virt) s with
      | (.error e, s) => (.error e, s)
      | (.ok pt, s) =>
        (.ok (), s.setMem (tableWrite s.mem pt (index1 virt) (leafEntry phys user nx)))

/-- Map a page for the kernel. -/
def mapPage (s : Machine σ) (virt phys : Nat) : Except MapError Unit × Machine σ :=
  s.mapPageImpl virt phys false false

/-- Map an executable user page. -/
def mapUserPage (s : Machine σ) (virt phys : Nat) : Except MapError Unit × Machine σ :=
  s.mapPageImpl virt phys true false

/-- Map a user data page, not executable. -/
def mapUserData (s : Machine σ) (virt phys : Nat) : Except MapError Unit × Machine σ :=
  s.mapPageImpl virt phys true true

end Machine

end LionOS.Paging
