import LionOS.Gdt.Descriptors

/-!
# What the processor reads from the task state segment

The manual puts RSP0 at byte 4 and IST1 at byte 36 of a 104-byte segment. `repr(C)`
pads the leading 32-bit word, so the structure puts them at bytes 8 and 40 of a
112-byte segment: the processor reads four bytes of padding and then the low half
of the address, as the high half.
-/

namespace LionOS.Gdt

open Lib

/-- The stack pointer for ring 0 the processor reads from the segment at `tss`. -/
def hardwareRsp0 (m : Mem) (tss : Nat) : Nat := readLE m (tss + 4) 8

/-- The first interrupt stack the processor reads from the segment at `tss`. -/
def hardwareIst1 (m : Mem) (tss : Nat) : Nat := readLE m (tss + 36) 8

/-- A call that changes the segment after `setup`. -/
inductive TssCall where
  | setIst0 (top : BitVec 64)
  | setRsp0 (addr : BitVec 64)

/-- Memory after one call on the segment of the region at `base`. -/
def TssCall.apply (base : Nat) (m : Mem) : TssCall → Mem
  | .setIst0 top => TaskStateSegment.setIst0 m (base + 0x1000) top.toNat
  | .setRsp0 addr => Gdt.setRsp0 m base addr.toNat

/-- Memory after a sequence of calls. -/
def applyAll (base : Nat) (m : Mem) (calls : List TssCall) : Mem :=
  calls.foldl (TssCall.apply base) m

/-- The stack of the last `set_ist0`, given the one before the calls. -/
def lastIst (ist : Nat) (calls : List TssCall) : Nat :=
  calls.foldl (fun ist c => match c with | .setIst0 top => top.toNat | .setRsp0 _ => ist) ist

/-- The stack of the last `set_rsp0`, if there was a call. -/
def lastRsp0 (rsp0 : Option Nat) (calls : List TssCall) : Option Nat :=
  calls.foldl (fun r c => match c with | .setIst0 _ => r | .setRsp0 addr => some addr.toNat) rsp0

/-- The structure is where the compiler puts it, not where the manual does. -/
theorem layout_offsets :
    TaskStateSegment.layout.offsetOf .rsp0 = 8 ∧ TaskStateSegment.layout.offsetOf .ist = 40 ∧
      TaskStateSegment.sizeOf = 112 := by
  decide

/-- The halves of the words the processor reads: padding below, the low half of the
stored address above. -/
structure Image (m : Mem) (tss ist rsp0 : Nat) : Prop where
  rsp0_pad : readLE m (tss + 4) 4 = 0
  rsp0_low : readLE m (tss + 8) 4 = rsp0 % 2 ^ 32
  ist_pad : readLE m (tss + 36) 4 = 0
  ist_low : readLE m (tss + 40) 4 = ist % 2 ^ 32

/-- The processor reads the low half of RSP0 as its high half. -/
theorem Image.hardwareRsp0 {m : Mem} {tss ist rsp0 : Nat} (h : Image m tss ist rsp0) :
    hardwareRsp0 m tss = 2 ^ 32 * (rsp0 % 2 ^ 32) := by
  rw [Gdt.hardwareRsp0, readLE_append m (tss + 4) 4 4, h.rsp0_pad, Nat.zero_add, h.rsp0_low]
  omega

/-- The processor reads the low half of the first interrupt stack as its high half. -/
theorem Image.hardwareIst1 {m : Mem} {tss ist rsp0 : Nat} (h : Image m tss ist rsp0) :
    hardwareIst1 m tss = 2 ^ 32 * (ist % 2 ^ 32) := by
  rw [Gdt.hardwareIst1, readLE_append m (tss + 36) 4 4, h.ist_pad, Nat.zero_add, h.ist_low]
  omega

theorem Image.congr {m m' : Mem} {tss ist rsp0 : Nat} (h : Image m tss ist rsp0)
    (hm : ∀ x, tss ≤ x → m' x = m x) : Image m' tss ist rsp0 := by
  have hread : ∀ o, readLE m' (tss + o) 4 = readLE m (tss + o) 4 :=
    fun o => readLE_congr fun x hx _ => hm x (by omega)
  refine ⟨?_, ?_, ?_, ?_⟩ <;> rw [hread]
  · exact h.rsp0_pad
  · exact h.rsp0_low
  · exact h.ist_pad
  · exact h.ist_low

theorem Image.setIst0 {m : Mem} {tss ist rsp0 : Nat} (h : Image m tss ist rsp0) (top : Nat) :
    Image (TaskStateSegment.setIst0 m tss top) tss top rsp0 := by
  rw [TaskStateSegment.setIst0, layout_offsets.2.1, write64]
  refine ⟨?_, ?_, ?_, readLE_writeLE_low m (tss + 40) top (by decide)⟩ <;>
    rw [readLE_writeLE_of_apart _ _ (by omega)]
  · exact h.rsp0_pad
  · exact h.rsp0_low
  · exact h.ist_pad

theorem Image.setRsp0 {m : Mem} {base ist rsp0 : Nat} (h : Image m (base + 0x1000) ist rsp0)
    (addr : Nat) : Image (setRsp0 m base addr) (base + 0x1000) ist addr := by
  rw [Gdt.setRsp0, write64]
  refine ⟨?_, readLE_writeLE_low m (base + 0x1000 + 8) addr (by decide), ?_, ?_⟩ <;>
    rw [readLE_writeLE_of_apart _ _ (by omega)]
  · exact h.rsp0_pad
  · exact h.ist_pad
  · exact h.ist_low

/-- Each call keeps the image and updates one of its words. -/
theorem Image.applyAll {m : Mem} {base ist : Nat} {rsp0 : Option Nat}
    (h : Image m (base + 0x1000) ist (rsp0.getD 0)) (calls : List TssCall) :
    Image (applyAll base m calls) (base + 0x1000) (lastIst ist calls)
      ((lastRsp0 rsp0 calls).getD 0) := by
  induction calls generalizing m ist rsp0 with
  | nil => exact h
  | cons c calls ih =>
    cases c with
    | setIst0 top => exact ih (h.setIst0 top.toNat)
    | setRsp0 addr =>
      have hset : Image (Gdt.setRsp0 m base addr.toNat) (base + 0x1000) ist
          ((some addr.toNat).getD 0) := h.setRsp0 addr.toNat
      exact ih hset

/-- A descriptor stored below an address leaves it alone. -/
theorem SegmentDescriptor.store_of_outside (d : SegmentDescriptor) (m : Mem) {a x : Nat}
    (h : x < a ∨ a + 8 ≤ x) : d.store m a x = m x :=
  CStruct.store_of_outside h

theorem TssDescriptor.store_of_outside (d : TssDescriptorField → Nat) (m : Mem) {a x : Nat}
    (h : x < a ∨ a + 16 ≤ x) : TssDescriptor.store d m a x = m x :=
  CStruct.store_of_outside h

/-- The table does not reach into the segment's page. -/
private theorem setup_apply_of_le (m : Mem) {base x : Nat} (h : base + 0x1000 ≤ x) :
    setup m base x =
      TaskStateSegment.setIst0 (zeroBytes m (base + 0x1000) 4096) (base + 0x1000) (base + 0x3000)
        x := by
  simp only [setup]
  rw [SegmentDescriptor.store_of_outside _ _ (by omega),
    SegmentDescriptor.store_of_outside _ _ (by omega),
    TssDescriptor.store_of_outside _ _ (by omega),
    SegmentDescriptor.store_of_outside _ _ (by omega),
    SegmentDescriptor.store_of_outside _ _ (by omega),
    SegmentDescriptor.store_of_outside _ _ (by omega)]

/-- After `setup` the segment holds the double-fault stack and nothing else. -/
theorem image_setup (m : Mem) (base : Nat) :
    Image (setup m base) (base + 0x1000) (base + 0x3000) 0 := by
  have hzero : Image (zeroBytes m (base + 0x1000) 4096) (base + 0x1000) 0 0 := by
    refine ⟨?_, ?_, ?_, ?_⟩ <;> exact readLE_zeroBytes m (by omega) (by omega)
  exact (hzero.setIst0 (base + 0x3000)).congr fun x hx => setup_apply_of_le m hx

/-- Each field of the stored descriptor is read back. -/
theorem readLE_available (m : Mem) (a b : Nat) {f : TssDescriptorField} {o : Nat}
    (h : (f, o) ∈ TssDescriptor.layout.offsets) :
    readLE (TssDescriptor.store (TssDescriptor.available b) m a) (a + o)
        (TssDescriptor.layout.type f).size =
      TssDescriptor.available b f % 256 ^ (TssDescriptor.layout.type f).size :=
  CStruct.readLE_store h

/-- The base of the descriptor is decoded as it was given. -/
theorem base_available (m : Mem) (a : Nat) {b : Nat} (hb : b < 2 ^ 64) :
    TssDescriptor.base (TssDescriptor.store (TssDescriptor.available b) m a) a = b := by
  have h1 := readLE_available m a b (f := .baseLow) (o := 2) (by decide)
  have h2 := readLE_available m a b (f := .baseMid) (o := 4) (by decide)
  have h3 := readLE_available m a b (f := .baseHi) (o := 7) (by decide)
  have h4 := readLE_available m a b (f := .baseUpper) (o := 8) (by decide)
  simp only [TssDescriptor.layout, CType.uint, TssDescriptor.available,
    Nat.shiftRight_eq_div_pow] at h1 h2 h3 h4
  rw [TssDescriptor.base, h1, h2, h3, h4]
  omega

/-- The limit of the descriptor is the size the compiler gives the structure, less one. -/
theorem limit_available (m : Mem) (a b : Nat) :
    TssDescriptor.limit (TssDescriptor.store (TssDescriptor.available b) m a) a = 111 := by
  have h1 := readLE_available m a b (f := .limitLow) (o := 0) (by decide)
  have h2 := readLE_available m a b (f := .flags) (o := 6) (by decide)
  simp only [TssDescriptor.layout, CType.uint, TssDescriptor.available, layout_offsets.2.2,
    Nat.add_zero] at h1 h2
  rw [TssDescriptor.limit, h1, h2]
  decide

/-- The image at `tss` and the descriptor at `a` mean what the manual says: the stacks
last set, the base `b` and a 104-byte segment. -/
structure MatchesManual (image : Mem) (tss ist : Nat) (rsp0 : Option Nat) (table : Mem)
    (a b : Nat) : Prop where
  ist1 : hardwareIst1 image tss = ist
  rsp0 : ∀ r, rsp0 = some r → hardwareRsp0 image tss = r
  base : TssDescriptor.base table a = b
  limit : TssDescriptor.limit table a = 103

theorem lastIst_lt {ist : Nat} (h : ist < 2 ^ 64) (calls : List TssCall) :
    lastIst ist calls < 2 ^ 64 := by
  induction calls generalizing ist with
  | nil => exact h
  | cons c calls ih =>
    cases c with
    | setIst0 top => exact ih top.isLt
    | setRsp0 addr => exact ih h

theorem lastRsp0_lt {rsp0 : Option Nat} (h : ∀ r, rsp0 = some r → r < 2 ^ 64)
    (calls : List TssCall) {r : Nat} (hr : lastRsp0 rsp0 calls = some r) : r < 2 ^ 64 := by
  induction calls generalizing rsp0 with
  | nil => exact h r hr
  | cons c calls ih =>
    cases c with
    | setIst0 top => exact ih h hr
    | setRsp0 addr =>
      have hlast : ∀ q, some addr.toNat = some q → q < 2 ^ 64 := by
        intro q hq
        obtain rfl := Option.some.inj hq
        exact addr.isLt
      exact ih hlast hr

/-- The regions end below the end of the address space. -/
theorem regionBase_lt (idx : Fin 512) : regionBase idx + 0x3000 < 2 ^ 64 := by
  revert idx
  decide +kernel

/-- The low half of a word, read as its high half, is the word only when that is zero. -/
private theorem swapped_eq_iff {x : Nat} (h : x < 2 ^ 64) : 2 ^ 32 * (x % 2 ^ 32) = x ↔ x = 0 := by
  omega

/-- **The image never means what the processor reads.** After any calls on the segment
`setup` wrote, the processor finds the stacks that were set only where those are zero;
the descriptor's base is right and its limit is 111, so the image and descriptor
together never match the manual. -/
theorem tss_image_never_matches (m table : Mem) (idx : Fin 512) (calls : List TssCall) (a : Nat)
    (b : BitVec 64) :
    let base := regionBase idx
    let image := applyAll base (setup m base) calls
    let ist := lastIst (base + 0x3000) calls
    let rsp0 := lastRsp0 none calls
    let table' := TssDescriptor.store (TssDescriptor.available b.toNat) table a
    (hardwareIst1 image (base + 0x1000) = ist ↔ ist = 0) ∧
      (∀ r, rsp0 = some r → (hardwareRsp0 image (base + 0x1000) = r ↔ r = 0)) ∧
      TssDescriptor.base table' a = b.toNat ∧ TssDescriptor.limit table' a = 111 ∧
      ¬ MatchesManual image (base + 0x1000) ist rsp0 table' a b.toNat := by
  intro base image ist rsp0 table'
  have hstart : Image (setup m base) (base + 0x1000) (base + 0x3000) ((none : Option Nat).getD 0) :=
    image_setup m base
  have himage : Image image (base + 0x1000) ist (rsp0.getD 0) := hstart.applyAll calls
  have hlimit : TssDescriptor.limit table' a = 111 := limit_available table a b.toNat
  refine ⟨?_, ?_, base_available table a b.isLt, hlimit, ?_⟩
  · rw [himage.hardwareIst1]
    exact swapped_eq_iff (lastIst_lt (regionBase_lt idx) calls)
  · intro r hr
    rw [himage.hardwareRsp0, hr, Option.getD_some]
    exact swapped_eq_iff (lastRsp0_lt (by simp) calls hr)
  · intro h
    have hbad := h.limit
    rw [hlimit] at hbad
    exact absurd hbad (by decide)

/-- In the region at index 2 with RSP0 set to `0x10000005000`, the processor takes the
stacks `0x300000000000` and `0x500000000000` instead of those that were set. -/
theorem tss_image_at_index_two :
    let base := regionBase 2
    let calls := [TssCall.setRsp0 0x10000005000#64]
    let image := applyAll base (setup (fun _ => 0) base) calls
    let table := TssDescriptor.store (TssDescriptor.available (base + 0x1000)) (fun _ => 0) 0
    hardwareIst1 image (base + 0x1000) = 0x300000000000 ∧
      lastIst (base + 0x3000) calls = 0x10000003000 ∧
      hardwareRsp0 image (base + 0x1000) = 0x500000000000 ∧
      lastRsp0 none calls = some 0x10000005000 ∧ TssDescriptor.limit table 0 = 111 ∧
      ¬ MatchesManual image (base + 0x1000) (lastIst (base + 0x3000) calls)
        (lastRsp0 none calls) table 0 (base + 0x1000) := by
  intro base calls image table
  have hbase : base = 0x10000000000 := by decide
  have haddr : (0x10000005000#64).toNat = 0x10000005000 := by decide
  have himage : Image image (base + 0x1000) (base + 0x3000) (0x10000005000#64).toNat :=
    (image_setup (fun _ => 0) base).setRsp0 _
  have hlimit : TssDescriptor.limit table 0 = 111 := limit_available _ 0 _
  refine ⟨?_, ?_, ?_, ?_, hlimit, fun h => ?_⟩
  · rw [himage.hardwareIst1, hbase]
    decide
  · simp only [calls, lastIst, List.foldl_cons, List.foldl_nil, hbase]
  · rw [himage.hardwareRsp0, haddr]
    decide
  · simp only [calls, lastRsp0, List.foldl_cons, List.foldl_nil, haddr]
  · have hbad := h.limit
    rw [hlimit] at hbad
    exact absurd hbad (by decide)

end LionOS.Gdt
