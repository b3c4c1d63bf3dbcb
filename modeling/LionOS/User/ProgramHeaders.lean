import LionOS.User.Elf
import Mathlib.Tactic.SplitIfs

/-!
# The program-header table

`load_segments` reads a slice of any bytes. Here the scan is written with the checks Rust
makes and `Elf` leaves out: every sum and product must fit a machine word, and every range
of the slice must lie inside it. The test `off + 56 > len` keeps the reads of one header
inside, and as the header before it ended inside, only the first header's sum can overflow.
-/

namespace LionOS.User

open Lib

/-- Why the scan stops the kernel. -/
inductive ScanFault where
  | overflow
  | outOfRange
  deriving DecidableEq, Repr

/-- A sum of machine words. -/
def addWord (a b : Nat) : Except ScanFault Nat :=
  if a + b < 2 ^ 64 then .ok (a + b) else .error .overflow

/-- A product of machine words. -/
def mulWord (a b : Nat) : Except ScanFault Nat :=
  if a * b < 2 ^ 64 then .ok (a * b) else .error .overflow

/-- The number in `elf[off + a..off + b]`. -/
def field (elf : Slice) (off a b : Nat) : Except ScanFault Nat := do
  let lo ← addWord off a
  let hi ← addWord off b
  if lo ≤ hi ∧ hi ≤ elf.len then .ok (readLE elf.mem lo (hi - lo)) else .error .outOfRange

/-- The segment described by the program header at `off`, read field by field. -/
def decodeHeader (elf : Slice) (off : Nat) : Except ScanFault Segment := do
  let flags ← field elf off 4 8
  let pOffset ← field elf off 8 16
  let pVaddr ← field elf off 16 24
  let pFilesz ← field elf off 32 40
  let pMemsz ← field elf off 40 48
  .ok ⟨pVaddr, pOffset, pFilesz, pMemsz, flags⟩

/-- The state of the scan. The offsets of the headers it has read are kept to be reasoned
about. -/
structure Scan where
  count : Nat
  out : List Segment
  decoded : List Nat

/-- The loop with `left` headers to go, from header `i` on. -/
def scanHeaders (elf : Slice) (phoff phentsize : Nat) :
    (left i : Nat) → Scan → Except ScanFault Scan
  | 0, _, r => .ok r
  | left + 1, i, r => do
    let step ← mulWord i phentsize
    let off ← addWord phoff step
    let stop ← addWord off 56
    if elf.len < stop then .ok r
    else do
      let pType ← field elf off 0 4
      let decoded := r.decoded ++ [off]
      if pType ≠ ptLoad then
        scanHeaders elf phoff phentsize left (i + 1) ⟨r.count, r.out, decoded⟩
      else do
        let g ← decodeHeader elf off
        scanHeaders elf phoff phentsize left (i + 1) ⟨r.count + 1, r.out ++ [g], decoded⟩

/-- `load_segments` with its checks. -/
def scanSegments (elf : Slice) (out : List Segment) : Except ScanFault Scan :=
  if elf.len < 64 then .ok ⟨0, out, []⟩
  else do
    let _ ← field elf 0 0 4
    if !hasMagic elf then .ok ⟨0, out, []⟩
    else do
      let phoff ← field elf 0 32 40
      let phentsize ← field elf 0 54 56
      let phnum ← field elf 0 56 58
      scanHeaders elf phoff phentsize phnum 0 ⟨0, out, []⟩

section

variable {elf : Slice} {off a b : Nat}

/-- A field that ends inside the slice is read. -/
theorem field_of_le (hab : a ≤ b) (h : off + b ≤ elf.len) :
    field elf off a b = .ok (readLE elf.mem (off + a) (b - a)) := by
  have hlen := elf.len_lt
  have hlo : addWord off a = .ok (off + a) := if_pos (by omega)
  have hhi : addWord off b = .ok (off + b) := if_pos (by omega)
  have hwidth : off + b - (off + a) = b - a := by omega
  rw [field, hlo, hhi]
  simp only [bind, Except.bind, hwidth]
  rw [if_pos (by omega)]

/-- A header that ends inside the slice is decoded. -/
theorem decodeHeader_of_le (h : off + 56 ≤ elf.len) :
    decodeHeader elf off = .ok (segmentAt elf off) := by
  rw [decodeHeader, field_of_le (by decide) (by omega), field_of_le (by decide) (by omega),
    field_of_le (by decide) (by omega), field_of_le (by decide) (by omega),
    field_of_le (by decide) (by omega)]
  rfl

/-- The scan after the header at `off`. -/
def Scan.step (elf : Slice) (r : Scan) (off : Nat) : Scan :=
  if readLE elf.mem off 4 ≠ ptLoad then ⟨r.count, r.out, r.decoded ++ [off]⟩
  else ⟨r.count + 1, r.out ++ [segmentAt elf off], r.decoded ++ [off]⟩

theorem Scan.step_decoded (r : Scan) : (r.step elf off).decoded = r.decoded ++ [off] := by
  unfold Scan.step
  split <;> rfl

end

section

variable {elf : Slice} {phoff phentsize left i : Nat} {r : Scan}

/-- The sum for a header may overflow. -/
theorem scanHeaders_of_overflow (h : 2 ^ 64 ≤ phoff + i * phentsize + 56) :
    scanHeaders elf phoff phentsize (left + 1) i r = .error .overflow := by
  have hstop : addWord (phoff + i * phentsize) 56 = .error .overflow := if_neg (by omega)
  rw [scanHeaders]
  by_cases hmul : i * phentsize < 2 ^ 64
  · have hstep : mulWord i phentsize = .ok (i * phentsize) := if_pos hmul
    by_cases hsum : phoff + i * phentsize < 2 ^ 64
    · have hoff : addWord phoff (i * phentsize) = .ok (phoff + i * phentsize) := if_pos hsum
      simp only [bind, Except.bind, hstep, hoff, hstop]
    · have hoff : addWord phoff (i * phentsize) = .error .overflow := if_neg hsum
      simp only [bind, Except.bind, hstep, hoff]
  · have hstep : mulWord i phentsize = .error .overflow := if_neg hmul
    simp only [bind, Except.bind, hstep]

/-- A header that does not end inside the slice ends the scan. -/
theorem scanHeaders_of_lt (h : phoff + i * phentsize + 56 < 2 ^ 64)
    (hlt : elf.len < phoff + i * phentsize + 56) :
    scanHeaders elf phoff phentsize (left + 1) i r = .ok r := by
  have hmul : mulWord i phentsize = .ok (i * phentsize) := if_pos (by omega)
  have hoff : addWord phoff (i * phentsize) = .ok (phoff + i * phentsize) := if_pos (by omega)
  have hstop : addWord (phoff + i * phentsize) 56 = .ok (phoff + i * phentsize + 56) := if_pos h
  rw [scanHeaders, hmul]
  simp only [bind, Except.bind, hoff, hstop, hlt, if_true]

/-- A header inside the slice is read, and the scan goes on. -/
theorem scanHeaders_of_le (h : phoff + i * phentsize + 56 ≤ elf.len) :
    scanHeaders elf phoff phentsize (left + 1) i r =
      scanHeaders elf phoff phentsize left (i + 1) (r.step elf (phoff + i * phentsize)) := by
  have hlen := elf.len_lt
  have hmul : mulWord i phentsize = .ok (i * phentsize) := if_pos (by omega)
  have hoff : addWord phoff (i * phentsize) = .ok (phoff + i * phentsize) := if_pos (by omega)
  have hstop : addWord (phoff + i * phentsize) 56 = .ok (phoff + i * phentsize + 56) :=
    if_pos (by omega)
  have htype : field elf (phoff + i * phentsize) 0 4 =
      .ok (readLE elf.mem (phoff + i * phentsize) 4) := field_of_le (by decide) (by omega)
  rw [scanHeaders, hmul]
  simp only [bind, Except.bind, hoff, hstop, Nat.not_lt.mpr h, if_false, htype, Scan.step,
    decodeHeader_of_le h]
  split_ifs <;> rfl

/-- Once the first sum fits, the scan comes to its end and reads headers inside the slice
only: a header that was read ends below `2 ^ 63`, so the next sum fits too. -/
theorem scanHeaders_ok (hsize : phentsize < 2 ^ 16) (h : phoff + i * phentsize + 56 < 2 ^ 64)
    (hr : ∀ off ∈ r.decoded, off + 56 ≤ elf.len) :
    ∃ r', scanHeaders elf phoff phentsize left i r = .ok r' ∧
      ∀ off ∈ r'.decoded, off + 56 ≤ elf.len := by
  induction left generalizing i r with
  | zero => exact ⟨r, rfl, hr⟩
  | succ left ih =>
    have hlen := elf.len_lt
    by_cases hlt : elf.len < phoff + i * phentsize + 56
    · exact ⟨r, scanHeaders_of_lt h hlt, hr⟩
    · have hle := Nat.le_of_not_lt hlt
      have hnext : (i + 1) * phentsize = i * phentsize + phentsize := Nat.succ_mul ..
      rw [scanHeaders_of_le hle]
      apply ih (by omega)
      rw [Scan.step_decoded]
      intro off hoff
      rcases List.mem_append.mp hoff with hoff | hoff
      · exact hr off hoff
      · rwa [List.mem_singleton.mp hoff]

/-- The loop without the checks on ranges does the same: they never fail. -/
theorem loadHeaders_eq :
    loadHeaders elf phoff phentsize left i r.count r.out =
      match scanHeaders elf phoff phentsize left i r with
      | .ok r' => .ok (r'.count, r'.out)
      | .error _ => .error .overflow := by
  induction left generalizing i r with
  | zero => rfl
  | succ left ih =>
    rw [loadHeaders]
    by_cases hover : 2 ^ 64 ≤ phoff + i * phentsize + 56
    · rw [scanHeaders_of_overflow hover]
      unfold checked
      split_ifs with hoff
      · simp only [bind, Except.bind]
        rw [if_neg (by omega)]
      · rfl
    have hstop := Nat.lt_of_not_le hover
    rw [checked_of_lt (by omega : phoff + i * phentsize < 2 ^ 64)]
    simp only [bind, Except.bind, checked_of_lt hstop]
    by_cases hlt : elf.len < phoff + i * phentsize + 56
    · rw [if_pos hlt, scanHeaders_of_lt hstop hlt]
    · rw [if_neg hlt, scanHeaders_of_le (Nat.le_of_not_lt hlt), ← ih, Scan.step]
      split_ifs <;> rfl

end

/-- What the scan is of a slice with a file header. -/
theorem scanSegments_of_magic {elf : Slice} {out : List Segment} (hlen : 64 ≤ elf.len)
    (hmagic : hasMagic elf = true) :
    scanSegments elf out = scanHeaders elf (read64 elf.mem 32) (readLE elf.mem 54 2)
      (readLE elf.mem 56 2) 0 ⟨0, out, []⟩ := by
  have hid : field elf 0 0 4 = .ok (readLE elf.mem 0 4) := field_of_le (by decide) (by omega)
  have hphoff : field elf 0 32 40 = .ok (readLE elf.mem 32 8) :=
    field_of_le (by decide) (by omega)
  have hsize : field elf 0 54 56 = .ok (readLE elf.mem 54 2) :=
    field_of_le (by decide) (by omega)
  have hnum : field elf 0 56 58 = .ok (readLE elf.mem 56 2) :=
    field_of_le (by decide) (by omega)
  rw [scanSegments, if_neg (by omega), hid]
  simp only [bind, Except.bind, hmagic, hphoff, hsize, hnum]
  rfl

/-- A slice without a file header holds no segments. -/
theorem scanSegments_of_no_header {elf : Slice} (out : List Segment)
    (h : elf.len < 64 ∨ hasMagic elf = false) : scanSegments elf out = .ok ⟨0, out, []⟩ := by
  by_cases hlen : elf.len < 64
  · rw [scanSegments, if_pos hlen]
  · have hmagic := h.resolve_left hlen
    have hid : field elf 0 0 4 = .ok (readLE elf.mem 0 4) := field_of_le (by decide) (by omega)
    rw [scanSegments, if_neg hlen, hid]
    simp only [bind, Except.bind, hmagic]
    rfl

/-- `load_segments` without the checks on ranges gives the same result. -/
theorem loadSegments_eq (elf : Slice) (out : List Segment) :
    loadSegments elf out =
      match scanSegments elf out with
      | .ok r => .ok (r.count, r.out)
      | .error _ => .error .overflow := by
  by_cases h : elf.len < 64 ∨ hasMagic elf = false
  · rw [scanSegments_of_no_header out h, loadSegments, if_pos (by simpa using h)]
  · push Not at h
    have hmagic : hasMagic elf = true := by simpa using h.2
    have hno : ¬ (elf.len < 64 || !hasMagic elf) = true := by simpa [hmagic] using h.1
    rw [scanSegments_of_magic h.1 hmagic, loadSegments, if_neg hno]
    exact loadHeaders_eq (r := ⟨0, out, []⟩)

/-- The scan returns, and every header it has read lies inside the slice. -/
def ScansInside (elf : Slice) (out : List Segment) : Prop :=
  ∃ r, scanSegments elf out = .ok r ∧ ∀ off ∈ r.decoded, off + 56 ≤ elf.len

/-- A table too close to the end of the address space overflows at its first header. -/
theorem scanSegments_of_far {elf : Slice} (out : List Segment) (hlen : 64 ≤ elf.len)
    (hmagic : hasMagic elf = true) (hnum : readLE elf.mem 56 2 ≠ 0)
    (hfar : 2 ^ 64 ≤ read64 elf.mem 32 + 56) : scanSegments elf out = .error .overflow := by
  obtain ⟨left, hleft⟩ := Nat.exists_eq_succ_of_ne_zero hnum
  rw [scanSegments_of_magic hlen hmagic, hleft]
  exact scanHeaders_of_overflow (by omega)

/-- **When the scan is total.** For every slice and every list it appends to, the scan
returns without overflow and without a range outside the slice, and every header it reads
lies inside, if and only if the slice has no ELF header, or its table is empty, or the end
of the table's first header is a machine word. -/
theorem scansInside_iff (elf : Slice) (out : List Segment) :
    ScansInside elf out ↔ elf.len < 64 ∨ hasMagic elf = false ∨ readLE elf.mem 56 2 = 0 ∨
      read64 elf.mem 32 + 56 < 2 ^ 64 := by
  by_cases h : elf.len < 64 ∨ hasMagic elf = false
  · have hscan : ScansInside elf out := ⟨_, scanSegments_of_no_header out h, by simp⟩
    exact iff_of_true hscan (h.elim Or.inl fun hm => Or.inr (Or.inl hm))
  push Not at h
  obtain ⟨hlen, hmagic⟩ := h
  have hmagic : hasMagic elf = true := by simpa using hmagic
  constructor
  · rintro ⟨r, hr, -⟩
    by_contra hc
    push Not at hc
    rw [scanSegments_of_far out hlen hmagic hc.2.2.1 hc.2.2.2] at hr
    exact absurd hr (by simp)
  · intro hc
    rw [ScansInside, scanSegments_of_magic hlen hmagic]
    rcases hc with hc | hc | hc | hc
    · omega
    · exact absurd hmagic (by simp [hc])
    · rw [hc]
      exact ⟨_, rfl, by simp⟩
    · exact scanHeaders_ok (readLE_lt elf.mem 54 2) (by omega) (by simp)

/-- An ELF header and 56 bytes of zeros; the header places its table of one entry at the last
address. -/
def farElf : Slice where
  mem x :=
    [0x7F, 0x45, 0x4C, 0x46].getD x
      (if 32 ≤ x ∧ x < 40 then 0xFF else if x = 56 then 1 else 0)
  len := 120
  len_lt := by decide

theorem farElf_not_scansInside : ¬ ScansInside farElf [] := by
  rintro ⟨r, hr, -⟩
  rw [scanSegments_of_far [] (by decide) (by decide) (by decide) (by decide)] at hr
  exact absurd hr (by simp)

/-- A program header. -/
structure ProgramHeader where
  type : UInt32
  flags : UInt32
  offset : UInt64
  vaddr : UInt64
  paddr : UInt64
  filesz : UInt64
  memsz : UInt64
  align : UInt64
  deriving DecidableEq, Repr

namespace ProgramHeader

/-- The 56 bytes of a header in a little-endian ELF64 file. -/
def encode (h : ProgramHeader) : List UInt8 :=
  leBytes 4 h.type.toNat ++ (leBytes 4 h.flags.toNat ++ (leBytes 8 h.offset.toNat ++
    (leBytes 8 h.vaddr.toNat ++ (leBytes 8 h.paddr.toNat ++ (leBytes 8 h.filesz.toNat ++
      (leBytes 8 h.memsz.toNat ++ leBytes 8 h.align.toNat))))))

/-- The header describes a loadable segment. -/
def loadable (h : ProgramHeader) : Bool := h.type.toNat == ptLoad

/-- The segment it describes. -/
def segment (h : ProgramHeader) : Segment :=
  ⟨h.vaddr.toNat, h.offset.toNat, h.filesz.toNat, h.memsz.toNat, h.flags.toNat⟩

/-- A header stored at `off` is read back. -/
theorem segmentAt_of_holds {h : ProgramHeader} {elf : Slice} {off : Nat}
    (hh : Holds elf.mem off h.encode) :
    readLE elf.mem off 4 = h.type.toNat ∧ segmentAt elf off = h.segment := by
  simp only [encode, holds_append, length_leBytes, Nat.add_assoc, Nat.reduceAdd] at hh
  obtain ⟨htype, hflags, hoffset, hvaddr, -, hfilesz, hmemsz, -⟩ := hh
  have h32 : ∀ x : UInt32, x.toNat % 256 ^ 4 = x.toNat := fun x => Nat.mod_eq_of_lt x.toNat_lt
  have h64 : ∀ x : UInt64, x.toNat % 256 ^ 8 = x.toNat := fun x => Nat.mod_eq_of_lt x.toNat_lt
  refine ⟨(readLE_of_holds htype).trans (h32 _), ?_⟩
  rw [segmentAt, segment, read64, read64, read64, read64, readLE_of_holds hflags,
    readLE_of_holds hoffset, readLE_of_holds hvaddr, readLE_of_holds hfilesz,
    readLE_of_holds hmemsz, h32, h64, h64, h64, h64]

end ProgramHeader

/-- The file holds the table `hs` at `phoff` with a stride of `phentsize`, and its file
header says so. -/
structure HasTable (elf : Slice) (phoff phentsize : Nat) (hs : List ProgramHeader) : Prop where
  length_ge : 64 ≤ elf.len
  magic : hasMagic elf = true
  phoff_eq : read64 elf.mem 32 = phoff
  phentsize_eq : readLE elf.mem 54 2 = phentsize
  phnum_eq : readLE elf.mem 56 2 = hs.length
  phoff_ge : 64 ≤ phoff
  phentsize_ge : 56 ≤ phentsize
  inside : phoff + hs.length * phentsize ≤ elf.len
  holds : ∀ i h, hs[i]? = some h → Holds elf.mem (phoff + i * phentsize) h.encode

/-- The loop over the rest of a table appends the loadable headers of the rest. -/
private theorem loadHeaders_of_holds {elf : Slice} {phoff phentsize : Nat}
    {before rest : List ProgramHeader} (hsize : 56 ≤ phentsize)
    (hin : phoff + (before.length + rest.length) * phentsize ≤ elf.len)
    (hholds : ∀ i h, (before ++ rest)[i]? = some h →
      Holds elf.mem (phoff + i * phentsize) h.encode) (n : Nat) (out : List Segment) :
    loadHeaders elf phoff phentsize rest.length before.length n out =
      .ok (n + (rest.filter ProgramHeader.loadable).length,
        out ++ (rest.filter ProgramHeader.loadable).map ProgramHeader.segment) := by
  induction rest generalizing before n out with
  | nil => simp [loadHeaders]
  | cons h rest ih =>
    have hlen := elf.len_lt
    have hend : phoff + before.length * phentsize + 56 ≤ elf.len := by
      have hmul : (before.length + 1) * phentsize ≤
          (before.length + (h :: rest).length) * phentsize :=
        Nat.mul_le_mul_right _ (by simp)
      rw [Nat.succ_mul] at hmul
      omega
    obtain ⟨htype, hseg⟩ := ProgramHeader.segmentAt_of_holds (hholds before.length h (by simp))
    have hnext := @ih (before ++ [h]) (by simpa [Nat.add_assoc, Nat.add_comm 1] using hin)
      (by simpa using hholds)
    rw [List.length_append, List.length_singleton] at hnext
    rw [List.length_cons, loadHeaders, checked_of_lt (by omega)]
    simp only [bind, Except.bind, checked_of_lt (by omega : phoff + before.length * phentsize + 56 <
      2 ^ 64), Nat.not_lt.mpr hend, if_false, htype, hseg, hnext]
    by_cases hload : h.loadable = true
    · have hpt : h.type.toNat = ptLoad := by simpa [ProgramHeader.loadable] using hload
      rw [if_neg (not_not.mpr hpt), List.filter_cons_of_pos hload]
      simp [Nat.add_assoc, Nat.add_comm 1]
    · have hpt : h.type.toNat ≠ ptLoad := by simpa [ProgramHeader.loadable] using hload
      rw [if_pos hpt, List.filter_cons_of_neg hload]

/-- **The program-header table is decoded.** For every list of program headers stored in
ELF64 form at any offset and with any stride that leave room for the headers, in a file that
contains the table, `load_segments` appends exactly the loadable headers, in table order and
with the values that were encoded, and returns their number. -/
theorem loadSegments_decodes {elf : Slice} {phoff phentsize : Nat} {hs : List ProgramHeader}
    (h : HasTable elf phoff phentsize hs) (out : List Segment) :
    loadSegments elf out =
      .ok ((hs.filter ProgramHeader.loadable).length,
        out ++ (hs.filter ProgramHeader.loadable).map ProgramHeader.segment) := by
  have hno : ¬ (elf.len < 64 || !hasMagic elf) = true := by simpa [h.magic] using h.length_ge
  rw [loadSegments, if_neg hno, h.phoff_eq, h.phentsize_eq, h.phnum_eq]
  have hloop := @loadHeaders_of_holds elf phoff phentsize [] hs h.phentsize_ge
    (by simpa using h.inside) h.holds 0 out
  rw [Nat.zero_add] at hloop
  exact hloop

/-- A note and a text segment. -/
def noteAndText : List ProgramHeader :=
  [⟨4, 4, 0x200, 0x200, 0x200, 0x20, 0x20, 4⟩, ⟨1, 5, 0x1000, 0x4000, 0x4000, 0x72, 0x80, 0x1000⟩]

/-- A file with these two headers, at a stride of 64 bytes. -/
def tableBytes : List UInt8 :=
  [0x7F, 0x45, 0x4C, 0x46] ++ leBytes 28 0 ++ leBytes 8 64 ++ leBytes 14 0 ++ leBytes 2 64 ++
    leBytes 2 2 ++ leBytes 6 0 ++
    noteAndText.flatMap fun h : ProgramHeader => h.encode ++ leBytes 8 0

/-- The slice of its bytes. -/
def tableElf : Slice where
  mem x := tableBytes.getD x 0
  len := 192
  len_lt := by decide

/-- The note is passed over and the text segment is read. -/
theorem loadSegments_decodes_tableElf :
    loadSegments tableElf [] = .ok (1, [⟨0x4000, 0x1000, 0x72, 0x80, 5⟩]) := by
  have htable : HasTable tableElf 64 64 noteAndText := by
    refine ⟨by decide, by decide, by decide, by decide, by decide, by decide, by decide, by decide,
      fun i h hi => ?_⟩
    obtain ⟨hlt, -⟩ := List.getElem?_eq_some_iff.mp hi
    have hi2 : i = 0 ∨ i = 1 := by
      simp only [noteAndText, List.length_cons, List.length_nil] at hlt
      omega
    rcases hi2 with rfl | rfl
    · obtain rfl := Option.some.inj hi
      decide
    · obtain rfl := Option.some.inj hi
      decide
  exact loadSegments_decodes htable []

end LionOS.User
