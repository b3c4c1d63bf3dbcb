import LionOS.Lib.CLayout

/-!
# The descriptor table and the task state segment

`gdt::setup` maps three pages at a fresh base: the descriptor table, the task
state segment and the double-fault stack. The pages are mapped one after the other,
so virtual memory from the base on is a byte memory here. The structures are laid
out by `repr(C)`; what the processor reads from them is decoded at the offsets of
its own manual.
-/

namespace LionOS.Gdt

open Lib

/-- Fields of `SegmentDescriptor`, in declaration order. -/
inductive SegmentField where
  | limitLow | baseLow | baseMid | access | granularity | baseHigh
  deriving DecidableEq, Repr

/-- Raw 8-byte segment descriptor. -/
structure SegmentDescriptor where
  limitLow : Nat
  baseLow : Nat
  baseMid : Nat
  access : Nat
  granularity : Nat
  baseHigh : Nat
  deriving DecidableEq, Repr

namespace SegmentDescriptor

/-- The layout of a segment descriptor. -/
def layout : CStruct SegmentField where
  fields := [.limitLow, .baseLow, .baseMid, .access, .granularity, .baseHigh]
  type
    | .limitLow | .baseLow => .uint 2
    | .baseMid | .access | .granularity | .baseHigh => .uint 1
  align_pos f := by cases f <;> decide

/-- The value of each field. -/
def value (d : SegmentDescriptor) : SegmentField → Nat
  | .limitLow => d.limitLow
  | .baseLow => d.baseLow
  | .baseMid => d.baseMid
  | .access => d.access
  | .granularity => d.granularity
  | .baseHigh => d.baseHigh

/-- A flat descriptor with the given access and granularity bytes. -/
def flat (access granularity : Nat) : SegmentDescriptor := ⟨0, 0, 0, access, granularity, 0⟩

/-- 64-bit code descriptor, ring 0. -/
def newCode64 : SegmentDescriptor := flat 0x9A 0xA0

/-- Data descriptor, ring 0, writable. -/
def newData64 : SegmentDescriptor := flat 0x92 0x00

/-- The all-zero null descriptor. -/
def null : SegmentDescriptor := flat 0 0

/-- 64-bit code descriptor, ring 3. -/
def newUserCode : SegmentDescriptor := flat 0xFA 0xA0

/-- Data descriptor, ring 3, writable. -/
def newUserData : SegmentDescriptor := flat 0xF2 0x00

/-- Store a descriptor at `a`. -/
def store (d : SegmentDescriptor) (m : Mem) (a : Nat) : Mem := layout.store m a d.value

/-- The descriptor the processor finds at `a`. -/
def read (m : Mem) (a : Nat) : SegmentDescriptor where
  limitLow := readLE m a 2
  baseLow := readLE m (a + 2) 2
  baseMid := readLE m (a + 4) 1
  access := readLE m (a + 5) 1
  granularity := readLE m (a + 6) 1
  baseHigh := readLE m (a + 7) 1

end SegmentDescriptor

/-- Selector of the kernel code segment. -/
def kernelCode : Nat := 0x08

/-- Selector of the user code segment. -/
def userCode : Nat := 0x28

/-- Selector of the user data segment. -/
def userData : Nat := 0x30

/-- Fields of `TaskStateSegment`, in declaration order. -/
inductive TssField where
  | reserved0 | rsp0 | rsp1 | rsp2 | reserved1 | ist | reserved2 | reserved3 | ioMapBase
  deriving DecidableEq, Repr

namespace TaskStateSegment

/-- The layout of the task state segment: `repr(C)`, not packed. -/
def layout : CStruct TssField where
  fields := [.reserved0, .rsp0, .rsp1, .rsp2, .reserved1, .ist, .reserved2, .reserved3, .ioMapBase]
  type
    | .reserved0 => .uint 4
    | .rsp0 | .rsp1 | .rsp2 | .reserved1 | .reserved2 => .uint 8
    | .ist => .array (.uint 8) 7
    | .reserved3 | .ioMapBase => .uint 2
  align_pos f := by cases f <;> decide

/-- Size of the structure. -/
def sizeOf : Nat := layout.size

/-- Set the first entry of the interrupt stack table of the segment at `tss`. -/
def setIst0 (m : Mem) (tss top : Nat) : Mem := write64 m (tss + layout.offsetOf .ist) top

end TaskStateSegment

/-- Fields of `TssDescriptor`, in declaration order. -/
inductive TssDescriptorField where
  | limitLow | baseLow | baseMid | access | flags | baseHi | baseUpper | reserved
  deriving DecidableEq, Repr

namespace TssDescriptor

/-- The layout of a task state segment descriptor. -/
def layout : CStruct TssDescriptorField where
  fields := [.limitLow, .baseLow, .baseMid, .access, .flags, .baseHi, .baseUpper, .reserved]
  type
    | .limitLow | .baseLow => .uint 2
    | .baseMid | .access | .flags | .baseHi => .uint 1
    | .baseUpper | .reserved => .uint 4
  align_pos f := by cases f <;> decide

/-- The fields of an available 64-bit descriptor with base `tssBase`. The casts keep the
low bits of what is stored. -/
def available (tssBase : Nat) : TssDescriptorField → Nat
  | .limitLow => (TaskStateSegment.sizeOf - 1) % 2 ^ 16
  | .baseLow => tssBase % 2 ^ 16
  | .baseMid => (tssBase >>> 16) % 2 ^ 8
  | .access => 0x89
  | .flags => 0x00
  | .baseHi => (tssBase >>> 24) % 2 ^ 8
  | .baseUpper => (tssBase >>> 32) % 2 ^ 32
  | .reserved => 0

/-- Store a descriptor at `a`. -/
def store (d : TssDescriptorField → Nat) (m : Mem) (a : Nat) : Mem := layout.store m a d

/-- The base the processor reads from the descriptor at `a`. -/
def base (m : Mem) (a : Nat) : Nat :=
  readLE m (a + 2) 2 + 2 ^ 16 * readLE m (a + 4) 1 + 2 ^ 24 * readLE m (a + 7) 1 +
    2 ^ 32 * readLE m (a + 8) 4

/-- The limit the processor reads from the descriptor at `a`. -/
def limit (m : Mem) (a : Nat) : Nat := readLE m a 2 + 2 ^ 16 * (readLE m (a + 6) 1 % 16)

end TssDescriptor

/-- The base of the region at a top-level index, made canonical. -/
def regionBase (idx : Fin 512) : Nat :=
  let base := idx.val <<< 39
  if 256 ≤ idx.val then base ||| 0xFFFF000000000000 else base

/-- Number of table slots after `setup`. -/
def gdtTssEntries : Nat := 7

/-- What `lgdt` loads: the last valid byte offset and the address of the table. -/
structure Gdtr where
  limit : Nat
  base : Nat

/-- Memory after `setup` in the region at `base`. -/
def setup (m : Mem) (base : Nat) : Mem :=
  let m := zeroBytes m (base + 0x1000) 4096
  let m := TaskStateSegment.setIst0 m (base + 0x1000) (base + 0x3000)
  let m := SegmentDescriptor.null.store m base
  let m := SegmentDescriptor.newCode64.store m (base + 1 * 8)
  let m := SegmentDescriptor.newData64.store m (base + 2 * 8)
  let m := TssDescriptor.store (TssDescriptor.available (base + 0x1000)) m (base + 3 * 8)
  let m := SegmentDescriptor.newUserCode.store m (base + 5 * 8)
  SegmentDescriptor.newUserData.store m (base + 6 * 8)

/-- The table register `setup` loads. -/
def setupGdtr (base : Nat) : Gdtr := ⟨gdtTssEntries * 8 - 1, base⟩

/-- Point the stack pointer for entries into ring 0 at `rsp0`; the byte offset of the
field is written out by hand. -/
def setRsp0 (m : Mem) (tssVbase rsp0 : Nat) : Mem := write64 m (tssVbase + 0x1000 + 8) rsp0

end LionOS.Gdt
