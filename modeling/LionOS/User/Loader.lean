import LionOS.Paging.Access
import LionOS.User.Elf

/-!
# Loading the user program

`bring_up` takes the first free 512 GiB region, maps the pages of every loadable
segment there, copying each page's share of the file through the new mapping, and
maps one more page above the image for the stack. It then records the range that
`user_copy_in` checks user pointers against. What it does after that, up to the
descent to ring 3, touches neither the pages nor the range.

The loader keeps a list of the addresses it has mapped for the user. The program
does not; the list is there to be reasoned about.
-/

namespace LionOS.User

open Lib Paging

/-- A machine word with the page offset cleared. -/
def pageMask : Nat := 0xFFFFFFFFFFFFF000

/-- The user range that `set_user_range` records. -/
structure UserRange where
  start : Nat
  stop : Nat
  deriving DecidableEq, Repr

/-- The state of the load loop. -/
structure Loader (σ : Type) where
  machine : Machine σ
  /-- The addresses mapped by `map_user_page` and `map_user_data` so far. -/
  mapped : List Nat
  maxEnd : Nat

/-- What `bring_up` has set up when it records the user range. -/
structure Loaded (σ : Type) where
  machine : Machine σ
  mapped : List Nat
  range : UserRange

section

variable {σ : Type} [FrameSource σ]

/-- Map a page for the user in a new frame. -/
def mapNew (writable : Bool) (vaddr : Nat) (s : Machine σ) : Except Halt (Machine σ) :=
  match s.allocateFrame with
  | none => .error .outOfFrames
  | some (f, s) =>
    match if writable then s.mapUserData vaddr (f * 4096) else s.mapUserPage vaddr (f * 4096) with
    | (.error .outOfFrames, _) => .error .outOfFrames
    | (.ok (), s) => .ok s

/-- Both kinds of user mapping are `map_page_impl` with the user bit. -/
theorem mapNew_eq (writable : Bool) (vaddr : Nat) (s : Machine σ) :
    mapNew writable vaddr s =
      match FrameSource.allocateFrame s.frames with
      | none => .error .outOfFrames
      | some (f, frames) =>
        match Machine.mapPageImpl { s with frames := frames } vaddr (f * 4096) true writable with
        | (.error .outOfFrames, _) => .error .outOfFrames
        | (.ok (), s) => .ok s := by
  unfold mapNew Machine.allocateFrame
  cases FrameSource.allocateFrame s.frames with
  | none => rfl
  | some fa => cases writable <;> rfl

/-- Copy file bytes to a user page. -/
def copyBytes (elf : Slice) (fileStart vaddr n : Nat) (s : Machine σ) :
    Except Halt (Machine σ) :=
  match s.copyTo (fun k => elf.mem (fileStart + k)) vaddr n with
  | none => .error .pageFault
  | some s => .ok s

/-- Page `i` of a segment. -/
def loadPage (base : Nat) (elf : Slice) (g : Segment) (l : Loader σ) (i : Nat) :
    Except Halt (Loader σ) := do
  let vaddr ← checked (base + g.vaddr + i * 4096)
  let s ← mapNew g.writable vaddr l.machine
  let fileStart ← checked (g.fileOff + i * 4096)
  let n := min (g.filesz - i * 4096) 4096
  let s ← copyBytes elf fileStart vaddr n s
  .ok ⟨s, l.mapped ++ [vaddr], l.maxEnd⟩

/-- The first `n` pages of a segment. -/
def loadPages (base : Nat) (elf : Slice) (g : Segment) (l : Loader σ) :
    Nat → Except Halt (Loader σ)
  | 0 => .ok l
  | n + 1 => do
    let l ← loadPages base elf g l n
    loadPage base elf g l n

/-- One turn of the segment loop. -/
def loadSegment (base : Nat) (elf : Slice) (l : Loader σ) (g : Segment) :
    Except Halt (Loader σ) := do
  let _ ← checked (g.memsz + 4095)
  let l ← loadPages base elf g l g.pages
  let stop ← checked (g.vaddr + g.memsz)
  .ok ⟨l.machine, l.mapped, max l.maxEnd stop⟩

/-- The segment loop. -/
def loadLoop (base : Nat) (elf : Slice) : Loader σ → List Segment → Except Halt (Loader σ)
  | l, [] => .ok l
  | l, g :: segs => do
    let l ← loadSegment base elf l g
    loadLoop base elf l segs

/-- Map the stack page above the image and record the user range. -/
def mapStack (base : Nat) (l : Loader σ) : Except Halt (Loaded σ) := do
  let imageEnd ← checked (l.maxEnd + 0xFFF)
  let page ← checked (base + (imageEnd &&& pageMask))
  let s ← mapNew true page l.machine
  let top ← checked (page + 0x1000)
  .ok ⟨s, l.mapped ++ [page], ⟨base, top⟩⟩

/-- Load the segments and the stack into the region at `base`. -/
def loadProgram (base : Nat) (elf : Slice) (segs : List Segment) (s : Machine σ) :
    Except Halt (Loaded σ) := do
  let l ← loadLoop base elf ⟨s, [], 0⟩ segs
  mapStack base l

/-- Bring up the first ring-3 process, to the point where the user range is recorded;
`none` where `bring_up` returns false. -/
def bringUp (cpuHasSyscall : Bool) (elf : Slice) (s : Machine σ) :
    Except Halt (Option (Loaded σ)) :=
  if !cpuHasSyscall then .ok none
  else
    match s.findFreeTopIndex with
    | none => .error .noFreeRegion
    | some baseIdx =>
      if 256 ≤ baseIdx.val then .ok none
      else
        match entryPoint elf with
        | none => .error .noEntryPoint
        | some entryOff => do
          let base := baseIdx.val <<< 39
          let _ ← checked (base + entryOff)
          let (_, segs) ← loadSegments elf []
          if segs.isEmpty then .ok none
          else do
            let l ← loadProgram base elf segs s
            .ok (some l)

end

/-- The range check of `user_copy_in`. -/
def inUserRange (r : UserRange) (src n : Nat) : Bool :=
  !(r.start == 0 || src < r.start) && min (src + n) (2 ^ 64 - 1) ≤ r.stop

/-- Copy `n` bytes at the user address `src`; `none` where `user_copy_in` returns
false. -/
def userCopyIn {σ : Type} (r : UserRange) (s : Machine σ) (src n : Nat) :
    Except Halt (Option (List UInt8)) :=
  if inUserRange r src n then
    match s.copyFrom src n with
    | none => .error .pageFault
    | some bytes => .ok (some bytes)
  else .ok none

end LionOS.User
