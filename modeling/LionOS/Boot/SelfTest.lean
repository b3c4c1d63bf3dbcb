import LionOS.Boot.Handoff
import LionOS.Paging.Memory
import LionOS.Paging.Regions

/-!
# From the bootloader's map to a page of one's own

After the memory map, `kernel_main` initialises the frame allocator, takes a frame and gives
it back, takes the page tables over, maps a new frame in a free region, stores a word there
and reads it back, and reports each step. The frames come from usable regions and the
bootloader's tables do not lie in them, so every report is right.
-/

namespace LionOS.Boot

open Lib Frames Paging

/-- A line about frames or page tables. -/
inductive BootLine where
  | memMapError (e : Boot.MapError)
  | framesInitError
  | frames (total free used : Nat)
  | frameAlloc (phys : Nat)
  | handoffOk
  | takeover (cr3 : Nat)
  | cr3Now (cr3 : Nat) (owned : Bool)
  | mapRw (back pte : Nat) (physOk : Bool)
  | mapErr
  | takeoverErr
  | noPhysMapping
  deriving DecidableEq

/-- A sum of 64-bit words; `none` is an overflow. -/
def sum64 (a b : Nat) : Option Nat := if a + b < 2 ^ 64 then some (a + b) else none

/-- The floor of the allocator: the end of the kernel image, rounded up to a page, and a
margin. -/
def frameFloor (kernelEnd : Nat) : Option Nat :=
  (sum64 kernelEnd 4095).bind fun e => sum64 (e &&& 0xFFFFFFFFFFFFF000) 0x40000

/-- Take a frame and give it back. -/
def tryFrame (s : KeySort FrameRun.start) (a : FrameAllocator) : List BootLine × FrameAllocator :=
  match a.allocate with
  | none => ([], a)
  | some (f, a) => ([.frameAlloc (f * 4096)], a.deallocate s f)

/-- Store a 64-bit word at a virtual address; `none` is a page fault. -/
def storeWord {σ : Type} (m : Machine σ) (virt v : Nat) : Option (Machine σ) :=
  m.copyTo (fun i => UInt8.ofNat (v / 256 ^ i)) virt 8

/-- Read a 64-bit word at a virtual address. -/
def loadWord {σ : Type} (m : Machine σ) (virt : Nat) : Option Nat :=
  (m.copyFrom virt 8).map fun bytes => readLE (fun i => bytes.getD i 0) 0 8

def testWord : Nat := 0xDEADBEEFCAFEF00D

/-- Map a new frame in a free region, store a word and read it back. -/
def tryPage {σ : Type} [FrameSource σ] (m : Machine σ) : Option (List BootLine × Machine σ) :=
  match m.findFreeTopIndex with
  | none => some ([], m)
  | some idx =>
    let virt := regionBase idx
    match m.allocateFrame with
    | none => some ([], m)
    | some (dframe, m) =>
      let dphys := dframe * 4096
      match m.mapPage virt dphys with
      | (.error _, m) => some ([.mapErr], m)
      | (.ok (), m) => do
        let m ← storeWord m virt testWord
        let back ← loadWord m virt
        let pte := m.translate virt
        some ([.mapRw back pte (pte &&& addrMask == dphys)], m)

/-- Take the tables over and try a page. -/
def tryPaging {σ : Type} [FrameSource σ] (offset : Option Nat) (m : Machine σ) :
    Option (List BootLine × Machine σ) :=
  match offset with
  | none => some ([.noPhysMapping], m)
  | some _ =>
    match m.takeover with
    | (.error _, m) => some ([.takeoverErr], m)
    | (.ok newCr3, m) =>
      let cr3Now := m.cr3 &&& addrMask
      (tryPage m).map fun r =>
        (.takeover newCr3 :: .cr3Now cr3Now (cr3Now == newCr3) :: r.1, r.2)

/-- `kernel_main` from the memory map to the page it tries, over physical memory `mem` with
the root `cr3`. `none` is an index out of bounds, an overflow or a page fault. -/
def bootPaging (t : KeySort Region.start) (s : KeySort FrameRun.start) (regions : List MemoryRegion)
    (kernelEnd : Nat) (offset : Option Nat) (mem : Mem) (cr3 : Nat) :
    Option (List BootLine × Machine FrameAllocator) := do
  match ← memoryMap t regions with
  | .error e => some ([.memMapError e], ⟨mem, .empty, cr3⟩)
  | .ok usable =>
    let floor ← frameFloor kernelEnd
    let r ← FrameAllocator.empty.init s usable floor
    let start : List BootLine × FrameAllocator :=
      match r with
      | .error _ => ([.framesInitError], .empty)
      | .ok a => ([], a)
    let frames := .frames start.2.totalFrames start.2.freeFrames start.2.allocatedFrames
    let tried := tryFrame s start.2
    let rest ← tryPaging offset ⟨mem, tried.2, cr3⟩
    some (start.1 ++ frames :: tried.1 ++ .handoffOk :: rest.1, rest.2)

section

variable {σ : Type} [FrameSource σ] {s₀ m m' : Machine σ} {frame : Nat → Option Nat}
  {A B : AddressSpace UInt8}

/-- Bytes stored to pages with data frames. -/
theorem copyTo_holds (h : Paging.Holds s₀ frame m A) (src : Nat → UInt8) {v n : Nat}
    (hv : ∀ k < n, Canonical (v + k) ∧ ∃ f, frame ((v + k) / 4096) = some f) :
    ∃ m' B, m.copyTo src v n = some m' ∧ Paging.Holds s₀ frame m' B ∧
      ∀ k < n, B (v + k) = .holds (src k) := by
  induction n with
  | zero => exact ⟨m, A, rfl, h, by simp⟩
  | succ n ih =>
    obtain ⟨m₁, B, hcopy, hB, hheld⟩ := ih fun k hk => hv k (by omega)
    obtain ⟨hcan, f, hf⟩ := hv n (by omega)
    have hmapped := (hB.cells (v + n) hcan).isMapped_iff.mpr ⟨f, hf⟩
    have hstore : m₁.storeByte (v + n) (src n) =
        some (m₁.setMem (setByte m₁.mem (f * 4096 + (v + n) % 4096) (src n))) := by
      rw [Machine.storeByte, hB.physical hcan hf, Option.map_some]
    refine ⟨_, _, ?_, hB.store hmapped hstore, fun k hk => ?_⟩
    · rw [Machine.copyTo, hcopy, Option.bind_some, hstore]
    · by_cases hkn : k = n
      · rw [hkn, Function.update_self]
      · rw [Function.update_of_ne (by omega)]
        exact hheld k (by omega)

/-- Bytes read where they are held. -/
private theorem copyFrom_holds (h : Paging.Holds s₀ frame m A) (src : Nat → UInt8) {v n : Nat}
    (hv : ∀ k < n, Canonical (v + k)) (hA : ∀ k < n, A (v + k) = .holds (src k)) :
    m.copyFrom v n = some ((List.range n).map src) := by
  induction n with
  | zero => rfl
  | succ n ih =>
    have hlast := h.cells (v + n) (hv n (by omega))
    rw [hA n (by omega)] at hlast
    obtain ⟨f, hf, hb⟩ := hlast
    have hload : m.loadByte (v + n) = some (src n) := by
      rw [Machine.loadByte, h.physical (hv n (by omega)) hf, Option.map_some, hb]
    rw [Machine.copyFrom, ih (fun k hk => hv k (by omega)) fun k hk => hA k (by omega),
      Option.bind_some, hload, Option.map_some, List.range_succ, List.map_append]
    rfl

/-- A word stored to a page with a data frame is read back. -/
theorem storeWord_holds (h : Paging.Holds s₀ frame m A) {virt v f : Nat}
    (hv : ∀ k < 8, Canonical (virt + k) ∧ (virt + k) / 4096 = virt / 4096)
    (hf : frame (virt / 4096) = some f) :
    ∃ m' B, storeWord m virt v = some m' ∧ Paging.Holds s₀ frame m' B ∧
      loadWord m' virt = some (v % 256 ^ 8) := by
  obtain ⟨m', B, hstore, hB, hheld⟩ := copyTo_holds h
    (fun i => UInt8.ofNat (v / 256 ^ i)) (v := virt) (n := 8)
    fun k hk => ⟨(hv k hk).1, f, by rw [(hv k hk).2, hf]⟩
  refine ⟨m', B, hstore, hB, ?_⟩
  have hload := copyFrom_holds hB _ (fun k hk => (hv k hk).1) hheld
  have hbytes : ∀ x, 0 ≤ x → x < 0 + 8 →
      ((List.range 8).map fun i => UInt8.ofNat (v / 256 ^ i)).getD x 0 =
        writeLE (fun _ => 0) 0 8 v x := by
    intro x _ hx
    have hx' : x < 8 := by omega
    simp [writeLE, hx']
  rw [loadWord, hload, Option.map_some, readLE_congr hbytes, readLE_writeLE]

/-! ## The page that is tried -/

/-- A walk that runs out of frames has taken fewer than it has levels, and all there were. -/
private theorem descendAll_error {user : Bool} {q : List (Fin 512)} {t : Nat} {e : Paging.MapError}
    (h : Machine.descendAll user q t m = (.error e, m')) :
    ∃ fs, Takes fs m.frames m'.frames ∧ fs.length < q.length ∧
      FrameSource.allocateFrame m'.frames = none := by
  induction q generalizing m t with
  | nil => exact absurd h (by simp [Machine.descendAll])
  | cons i q ih =>
    rw [Machine.descendAll] at h
    cases hd : Machine.descend user t i m with
    | mk res m₁ =>
    simp only [hd] at h
    rcases Machine.descend_cases hd with ⟨-, rfl, rfl⟩ | ⟨hnone, rfl, rfl⟩ |
      ⟨f, frames, -, ha, rfl, rfl⟩
    · obtain ⟨fs, htakes, hlen, hdry⟩ := ih h
      exact ⟨fs, htakes, by rw [List.length_cons]; omega, hdry⟩
    · obtain ⟨-, rfl⟩ := Prod.mk.inj h
      exact ⟨[], rfl, by simp, hnone⟩
    · obtain ⟨fs, htakes, hlen, hdry⟩ := ih h
      refine ⟨f :: fs, ⟨frames, ha, htakes⟩, ?_, hdry⟩
      rw [List.length_cons, List.length_cons]
      omega

/-- The same of a page that cannot be mapped. -/
theorem mapPage_error {virt phys : Nat} {e : Paging.MapError}
    (h : m.mapPage virt phys = (.error e, m')) :
    ∃ fs, Takes fs m.frames m'.frames ∧ fs.length < 3 ∧
      FrameSource.allocateFrame m'.frames = none := by
  rw [Machine.mapPage, Machine.mapPageImpl_eq] at h
  split at h
  next e' m₁ hd =>
    obtain ⟨-, rfl⟩ := Prod.mk.inj h
    exact descendAll_error hd
  next => exact absurd (Prod.mk.inj h).1 (by simp)

/-- What trying a page comes to. -/
inductive Tried (m : Machine σ) : List BootLine → Machine σ → Prop
  | noRegion (h : m.findFreeTopIndex = none) : Tried m [] m
  | noFrame (h : FrameSource.allocateFrame m.frames = none) : Tried m [] m
  | mapErr {m' : Machine σ} {fs : List Nat} (h : Takes fs m.frames m'.frames)
      (hlen : fs.length < 4) (hdry : FrameSource.allocateFrame m'.frames = none) :
      Tried m [.mapErr] m'
  | mapped {m' : Machine σ} {pte : Nat} : Tried m [.mapRw testWord pte true] m'

/-- A word of the region's first page lies in it. -/
private theorem canonical_regionBase (idx : Fin 512) {k : Nat} (hk : k < 8) :
    Canonical (regionBase idx + k) ∧ (regionBase idx + k) / 4096 = regionBase idx / 4096 := by
  refine ⟨(canonical_region idx (by omega)).1, ?_⟩
  have hpage : regionBase idx % 4096 = 0 := by
    rw [regionBase_eq]
    split <;> omega
  omega

/-- **A page can be tried.** The word that is stored is read back, the leaf leads to the
frame, and no other page changes. -/
theorem tryPage_tried (h : Paging.Holds s₀ (fun _ => none) m A) :
    ∃ lines m', tryPage m = some (lines, m') ∧ Tried m lines m' ∧
      ∃ page, ∀ v, Canonical v → v / 4096 ≠ page → m'.lookup (path v) = s₀.lookup (path v) := by
  have hsame : ∀ v, Canonical v → m.lookup (path v) = s₀.lookup (path v) :=
    fun v hv => h.other v hv rfl
  unfold tryPage
  cases hidx : m.findFreeTopIndex with
  | none => exact ⟨[], m, rfl, .noRegion hidx, 0, fun v hv _ => hsame v hv⟩
  | some idx =>
    dsimp only
    cases halloc : m.allocateFrame with
    | none =>
      have hdry : FrameSource.allocateFrame m.frames = none := by
        unfold Machine.allocateFrame at halloc
        split at halloc
        · assumption
        · cases halloc
      exact ⟨[], m, rfl, .noFrame hdry, 0, fun v hv _ => hsame v hv⟩
    | some fm =>
      obtain ⟨f, m₁⟩ := fm
      obtain ⟨frames, ha, rfl⟩ := Machine.allocateFrame_eq_some halloc
      dsimp only
      have hcan := (canonical_regionBase idx (k := 0) (by omega)).1
      have hempty := Machine.lookup_region_of_absent (by decide : 0 < 2 ^ 39)
        (Machine.absent_of_free hidx)
      rw [Nat.add_zero] at hcan hempty
      have hopen : (s₀.lookup (path (regionBase idx))).2 = false := by
        rw [← hsame _ hcan, hempty]
      cases hmap : Machine.mapPage { m with frames := frames } (regionBase idx) (f * 4096) with
      | mk r m₂ =>
      rcases h.map hcan hopen halloc hmap with ⟨⟨e, rfl⟩, h₂⟩ | ⟨rfl, h₂⟩
      · obtain ⟨fs, htakes, hlen, hdry⟩ := mapPage_error hmap
        refine ⟨[.mapErr], m₂, rfl, .mapErr (show Takes (f :: fs) _ _ from ⟨frames, ha, htakes⟩)
          ?_ hdry, 0, fun v hv _ => h₂.other v hv rfl⟩
        rw [List.length_cons]
        omega
      · have hframe : Function.update (fun _ => none) (regionBase idx / 4096) (some f)
            (regionBase idx / 4096) = some f := Function.update_self ..
        obtain ⟨m₃, B, hstore, h₃, hload⟩ := storeWord_holds (v := testWord) h₂
          (fun k hk => canonical_regionBase idx hk) hframe
        obtain ⟨user, nx, hleaf⟩ := h₃.leaf _ hcan f hframe
        have hlt := (h₃.data _ f hframe).1
        have hphys : (m₃.translate (regionBase idx) &&& addrMask == f * 4096) = true := by
          rw [Machine.translate_eq, hleaf, beq_iff_eq]
          exact Machine.leafEntry_addr user nx (by omega) (by omega)
        refine ⟨[.mapRw testWord (m₃.translate (regionBase idx)) true], m₃, ?_, .mapped,
          regionBase idx / 4096, fun v hv hne => h₃.other v hv ?_⟩
        · simp only [hstore, Option.bind_eq_bind, Option.bind_some, hload, hphys]
          rfl
        · rw [Function.update_of_ne hne]

end

/-- What an accepted map hands to the allocator: ranges of usable regions, no two of which
share a byte. -/
theorem memoryMap_usable {t : KeySort Region.start} {regions : List MemoryRegion}
    {usable : List (Nat × Nat)} (h : memoryMap t regions = some (.ok usable)) :
    usable.Pairwise Frames.Disjoint ∧
      ∀ p ∈ usable, ∃ r ∈ regions, r.kind = .usable ∧ p = (r.start, r.stop) := by
  have hlen : regions.length ≤ maxRegions := by
    by_contra hlen
    have hcopy : copyRaw regions 0 (List.replicate maxRegions (0, 0, .usable)) = none :=
      copyRaw_of_gt (Nat.zero_le _) (by simp only [List.length_replicate]; omega)
    simp [memoryMap, hcopy] at h
  rw [memoryMap_of_le hlen] at h
  split at h
  · cases h
  next count out hv =>
    obtain rfl := Except.ok.inj (Option.some.inj h)
    obtain ⟨-, hacc⟩ := validateRegionsBytes_spec hv
    constructor
    · rw [usablePairs, List.pairwise_map, List.pairwise_filter]
      refine hacc.apart.imp fun {r q} hstop hr hq x hx => ?_
      have hle := hstop (of_decide_eq_true hr) (of_decide_eq_true hq)
      omega
    · intro p hp
      obtain ⟨r, hr, hraw⟩ := List.mem_map.mp (hacc.mem_usablePairs.mp hp)
      obtain ⟨hstart, hstop, hkind⟩ : r.start = p.1 ∧ r.stop = p.2 ∧ toKind r.kind = .usable := by
        simpa [MemoryRegion.raw] using hraw
      refine ⟨r, hr, ?_, Prod.ext hstart.symm hstop.symm⟩
      cases hk : r.kind with
      | usable => rfl
      | bootloader | unknownUefi | unknownBios | other => simp [hk, toKind] at hkind

/-- The frame lies in a usable region of the map. -/
def InUsable (regions : List MemoryRegion) (f : Nat) : Prop :=
  ∃ r ∈ regions, r.kind = .usable ∧ r.start ≤ f * 4096 ∧ f * 4096 + 4096 ≤ r.stop

/-- The allocator's free frames are different frames of usable regions. -/
theorem init_inUsable {t : KeySort Region.start} {s : KeySort FrameRun.start}
    {regions : List MemoryRegion} {usable : List (Nat × Nat)} {floor : Nat} {a a' : FrameAllocator}
    (hmap : memoryMap t regions = some (.ok usable)) (h : a.init s usable floor = some (.ok a')) :
    (freeList a'.active).Nodup ∧ ∀ f ∈ freeList a'.active, InUsable regions f := by
  obtain ⟨hdisjoint, husable⟩ := memoryMap_usable hmap
  have hinv := Inv.init hdisjoint h
  refine ⟨hinv.increasing.imp fun hlt => hlt.ne, fun f hf => ?_⟩
  rw [(FrameAllocator.init_spec h).1, (freeList_perm (s.perm _)).mem_iff] at hf
  obtain ⟨run, hrun, hf⟩ := mem_freeList.mp hf
  obtain ⟨p, hp, hpr⟩ := List.mem_filterMap.mp hrun
  obtain ⟨r, hr, hkind, rfl⟩ := husable p hp
  have hbounds := FrameAllocator.runOf_frames hpr hf
  simp only [frameSize] at hbounds
  exact ⟨r, hr, hkind, by omega, by omega⟩

theorem takes_frameAllocator {fs : List Nat} {a b : FrameAllocator} (h : Takes fs a b) :
    freeList a.active = fs ++ freeList b.active := by
  induction fs generalizing a with
  | nil =>
    obtain rfl : a = b := h
    rfl
  | cons f fs ih =>
    obtain ⟨c, ha, hrest⟩ := h
    have halloc : a.allocate = some (f, c) := ha
    rcases a.allocate_spec with ⟨hs, -⟩ | ⟨f', c', hs, hcons, -⟩
    · rw [halloc] at hs
      cases hs
    · obtain ⟨rfl, rfl⟩ := Prod.mk.inj (Option.some.inj (halloc.symm.trans hs))
      rw [hcons, ih hrest, List.cons_append]

theorem freeList_of_dry {a : FrameAllocator} (h : FrameSource.allocateFrame a = none) :
    freeList a.active = [] := by
  have halloc : a.allocate = none := h
  rcases a.allocate_spec with ⟨-, hnil⟩ | ⟨f, a', hs, -⟩
  · exact hnil
  · rw [halloc] at hs
    cases hs

/-- Taking a frame and giving it back: the frame is a free one, and at most it is lost. -/
theorem tryFrame_spec (s : KeySort FrameRun.start) (a : FrameAllocator) :
    (∀ line ∈ (tryFrame s a).1, ∃ f ∈ freeList a.active, line = .frameAlloc (f * 4096)) ∧
      ((freeList (tryFrame s a).2.active).Perm (freeList a.active) ∨
        ∃ f, freeList a.active = f :: freeList (tryFrame s a).2.active) := by
  unfold tryFrame
  rcases a.allocate_spec with ⟨hs, -⟩ | ⟨f, a', hs, hcons, -⟩
  · simp [hs]
  · simp only [hs, List.mem_singleton, forall_eq]
    refine ⟨⟨f, by simp [hcons], rfl⟩, ?_⟩
    by_cases hslot : a'.runCount < maxRuns
    · have hperm := freeList_deallocate_perm s f hslot
      rw [hcons]
      exact Or.inl (hperm.trans (List.perm_append_singleton f _))
    · rw [show a'.deallocate s f = a' from dif_neg hslot]
      exact Or.inr ⟨f, hcons⟩

/-! ## The reports -/

/-- What a line says is so, after a boot with the allocator `a`. A failure to take frames is
reported only where there are too few for the five that the test takes and the one it may have
lost. -/
def BootLine.Right (regions : List MemoryRegion) (offset : Option Nat) (a : FrameAllocator) :
    BootLine → Prop
  | .memMapError _ | .framesInitError => False
  | .frames total free used =>
    total = (freeList a.active).length ∧ free = (freeList a.active).length ∧ used = 0
  | .frameAlloc phys | .takeover phys => ∃ f, phys = f * 4096 ∧ InUsable regions f
  | .cr3Now _ owned => owned = true
  | .mapRw back _ physOk => back = testWord ∧ physOk = true
  | .mapErr => (freeList a.active).length < 6
  | .takeoverErr => (freeList a.active).length < 2
  | .noPhysMapping => offset = none
  -- It says that the boot has come this far.
  | .handoffOk => True

/-- The tables reachable from the root lie outside the usable regions, which lie in the 52-bit
physical memory. -/
structure TablesApart (regions : List MemoryRegion) (m : Machine FrameAllocator) : Prop where
  tree : m.Tree
  apart : ∀ r ∈ regions, r.kind = .usable → ∀ u, m.Reachable u → u + 4096 ≤ r.start ∨ r.stop ≤ u
  physical : ∀ r ∈ regions, r.kind = .usable → r.stop ≤ 2 ^ 52

theorem TablesApart.supplies {regions : List MemoryRegion} {m : Machine FrameAllocator}
    (h : TablesApart regions m) {a : FrameAllocator} (hnodup : (freeList a.active).Nodup)
    (hin : ∀ f ∈ freeList a.active, InUsable regions f) :
    Supplies a fun f => f < 2 ^ 40 ∧ ¬ m.Reachable (f * 4096) := by
  refine supplies_frameAllocator hnodup fun f hf => ?_
  obtain ⟨r, hr, hkind, hstart, hstop⟩ := hin f hf
  have hphys := h.physical r hr hkind
  refine ⟨by omega, fun hreach => ?_⟩
  have hout := h.apart r hr hkind _ hreach
  omega

/-- The new root has the same free regions. -/
theorem findFreeTopIndex_takeover {σ : Type} [FrameSource σ] {m m' : Machine σ} {cr3 : Nat}
    (hsupply : Supplies m.frames fun f => f < 2 ^ 40 ∧ ¬ m.Reachable (f * 4096))
    (h : m.takeover = (.ok cr3, m')) : m'.findFreeTopIndex = m.findFreeTopIndex := by
  obtain ⟨f, frames, ha, -, hcr3, -, hmem⟩ := Machine.takeover_ok h
  obtain ⟨⟨hf, hnew⟩, -⟩ := hsupply.step ha
  have hold : m.Reachable m.pml4 := ⟨[], by simp, rfl⟩
  have hroot : m'.pml4 = f * 4096 := by
    rw [Machine.pml4, hcr3]
    exact and_addrMask_of_aligned (by omega) (by omega)
  have hcopied : ∀ i, tableRead m'.mem m'.pml4 i = tableRead m.mem m.pml4 i := fun i => by
    rw [hmem, hroot]
    have hne : m.pml4 ≠ f * 4096 := fun hc => hnew (hc ▸ hold)
    exact entries_copyEntries_self _ hold.aligned (by omega) hne le_rfl i.isLt
  simp only [Machine.findFreeTopIndex, hcopied]

/-- The region is free and there are frames enough, so the page is mapped. -/
theorem Tried.of_enough {m m' : Machine FrameAllocator} {lines : List BootLine}
    (h : Tried m lines m') (hfree : m.findFreeTopIndex ≠ none)
    (hlen : 4 ≤ (freeList m.frames.active).length) :
    ∃ pte, lines = [.mapRw testWord pte true] := by
  cases h with
  | noRegion hnone => exact absurd hnone hfree
  | noFrame hdry =>
    rw [freeList_of_dry hdry, List.length_nil] at hlen
    omega
  | mapErr htakes hfew hdry =>
    rw [takes_frameAllocator htakes, freeList_of_dry hdry, List.append_nil] at hlen
    omega
  | mapped => exact ⟨_, rfl⟩

theorem Tried.right {m m' : Machine FrameAllocator} {lines : List BootLine}
    (h : Tried m lines m') {regions : List MemoryRegion} {offset : Option Nat}
    {a : FrameAllocator}
    (ha : (freeList a.active).length ≤ (freeList m.frames.active).length + 2) {line : BootLine}
    (hline : line ∈ lines) : line.Right regions offset a := by
  cases h with
  | noRegion | noFrame => cases hline
  | mapErr htakes hfew hdry =>
    obtain rfl := List.mem_singleton.mp hline
    rw [takes_frameAllocator htakes, freeList_of_dry hdry, List.append_nil] at ha
    change (freeList a.active).length < 6
    omega
  | mapped =>
    obtain rfl := List.mem_singleton.mp hline
    exact ⟨rfl, rfl⟩

/-- What the part behind the allocator reports. -/
theorem tryPaging_reports {regions : List MemoryRegion} {m : Machine FrameAllocator}
    {a₀ : FrameAllocator} (h : TablesApart regions m) (hnodup : (freeList m.frames.active).Nodup)
    (hin : ∀ f ∈ freeList m.frames.active, InUsable regions f)
    (hlost : (freeList a₀.active).length ≤ (freeList m.frames.active).length + 1)
    (offset : Option Nat) :
    ∃ lines m', tryPaging offset m = some (lines, m') ∧
      (∀ line ∈ lines, line.Right regions offset a₀) ∧
      (∃ page, ∀ v, Canonical v → v / 4096 ≠ page → m'.translate v = m.translate v) ∧
      (offset ≠ none → 5 ≤ (freeList m.frames.active).length → m.findFreeTopIndex ≠ none →
        ∃ pte, .mapRw testWord pte true ∈ lines) := by
  cases offset with
  | none => exact ⟨_, m, rfl, by simp [BootLine.Right], ⟨0, fun _ _ _ => rfl⟩, by simp⟩
  | some offset =>
  have hsupply := h.supplies hnodup hin
  cases htake : m.takeover with
  | mk r m₁ =>
  cases r with
  | error e =>
    obtain ⟨hdry, rfl⟩ := Machine.takeover_error htake
    rw [freeList_of_dry hdry, List.length_nil] at hlost
    refine ⟨[.takeoverErr], m₁, by rw [tryPaging, htake], ?_, ⟨0, fun _ _ _ => rfl⟩,
      fun _ hlen => ?_⟩
    · simp only [List.mem_singleton, forall_eq, BootLine.Right]
      omega
    · rw [freeList_of_dry hdry, List.length_nil] at hlen
      omega
  | ok cr3 =>
    have hholds := (Paging.Holds.start h.tree hsupply).takeover htake
    have hfree := findFreeTopIndex_takeover hsupply htake
    obtain ⟨f, frames, ha, rfl, hcr3, rfl, -⟩ := Machine.takeover_ok htake
    have hcons := takes_frameAllocator (show Takes [f] _ _ from ⟨m₁.frames, ha, rfl⟩)
    obtain ⟨lines, m₂, htry, htried, page, hsame⟩ := tryPage_tried hholds
    have hroot : m₁.cr3 &&& addrMask = f * 4096 := by
      have hlt := (hsupply.step ha).1.1
      rw [hcr3]
      exact and_addrMask_of_aligned (by omega) (by omega)
    refine ⟨.takeover (f * 4096) :: .cr3Now (f * 4096) true :: lines, m₂, ?_, ?_, ?_, ?_⟩
    · simp [tryPaging, htake, htry, hroot]
    · rw [hcons, List.length_append, List.length_singleton] at hlost
      simp only [List.forall_mem_cons]
      exact ⟨⟨f, rfl, hin f (by simp [hcons])⟩, rfl, fun line => htried.right (by omega)⟩
    · refine ⟨page, fun v hv hne => ?_⟩
      rw [Machine.translate_eq_lookup, Machine.translate_eq_lookup]
      exact congrArg Prod.fst (hsame v hv hne)
    · intro _ hlen hregion
      rw [hcons, List.length_append, List.length_singleton] at hlen
      rw [← hfree] at hregion
      obtain ⟨pte, rfl⟩ := htried.of_enough hregion (by omega)
      exact ⟨pte, by simp⟩

/-- **The boot log is right.** For every memory map that is accepted, with tables that form a
tree outside its usable regions: unless the floor or the rounding of a region overflows, the
boot comes through without a page fault, and every line it reports is right: all frames are
free, the frame that is tried and the new root lie in usable regions, the root is the
kernel's own, the word read back is the one stored, and the leaf leads to the frame that was
mapped; a failure is reported only where the frames do not reach or no physical mapping was
handed over. Outside the page it has tried every address translates as before. With at least
six usable frames and a free region the page is tried. -/
theorem boot_reports_right {t : KeySort Region.start} {s : KeySort FrameRun.start}
    {regions : List MemoryRegion} {usable : List (Nat × Nat)} {kernelEnd floor cr3 : Nat}
    {mem : Mem} {a : FrameAllocator} (hmap : memoryMap t regions = some (.ok usable))
    (hfloor : frameFloor kernelEnd = some floor)
    (hinit : FrameAllocator.empty.init s usable floor = some (.ok a))
    (htables : TablesApart regions ⟨mem, .empty, cr3⟩) (offset : Option Nat) :
    ∃ lines m', bootPaging t s regions kernelEnd offset mem cr3 = some (lines, m') ∧
      (∀ line ∈ lines, line.Right regions offset a) ∧
      (∃ page, ∀ v, Canonical v → v / 4096 ≠ page →
        m'.translate v = Machine.translate (⟨mem, .empty, cr3⟩ : Machine FrameAllocator) v) ∧
      (offset ≠ none → 6 ≤ (freeList a.active).length →
        Machine.findFreeTopIndex (⟨mem, .empty, cr3⟩ : Machine FrameAllocator) ≠ none →
        ∃ pte, .mapRw testWord pte true ∈ lines) := by
  obtain ⟨hnodup, hin⟩ := init_inUsable hmap hinit
  obtain ⟨hfree, htotal, halloc⟩ := FrameAllocator.init_spec hinit
  obtain ⟨htried, hleft⟩ := tryFrame_spec s a
  have hlen : (freeList a.active).length ≤ (freeList (tryFrame s a).2.active).length + 1 := by
    rcases hleft with hperm | ⟨f, hcons⟩
    · rw [hperm.length_eq]
      omega
    · rw [hcons, List.length_cons]
  have hsub : ∀ f ∈ freeList (tryFrame s a).2.active, f ∈ freeList a.active := by
    rcases hleft with hperm | ⟨f, hcons⟩
    · exact fun g hg => hperm.mem_iff.mp hg
    · exact fun g hg => hcons ▸ List.mem_cons_of_mem f hg
  have hnodup' : (freeList (tryFrame s a).2.active).Nodup := by
    rcases hleft with hperm | ⟨f, hcons⟩
    · exact hperm.nodup_iff.mpr hnodup
    · exact (List.nodup_cons.mp (hcons ▸ hnodup)).2
  have htables' : TablesApart regions ⟨mem, (tryFrame s a).2, cr3⟩ :=
    ⟨htables.tree, htables.apart, htables.physical⟩
  obtain ⟨lines, m', hpaging, hright, hsame, henough⟩ := @tryPaging_reports regions _ a htables'
    hnodup' (fun f hf => hin f (hsub f hf)) hlen offset
  refine ⟨.frames a.total (FrameAllocator.countSum a.active) a.allocated ::
    (tryFrame s a).1 ++ .handoffOk :: lines, m', ?_, ?_, hsame, ?_⟩
  · simp only [bootPaging, hmap, hfloor, hinit, Option.bind_eq_bind, Option.bind_some, hpaging]
    rfl
  · simp only [List.cons_append, List.forall_mem_cons, List.forall_mem_append]
    refine ⟨⟨htotal, (length_freeList _).symm, halloc⟩, fun line hline => ?_, trivial, hright⟩
    obtain ⟨f, hf, rfl⟩ := htried line hline
    exact ⟨f, rfl, hin f hf⟩
  · intro hoffset hmany hregion
    obtain ⟨pte, hpte⟩ := henough hoffset (by simp only; omega) hregion
    exact ⟨pte, by simp [hpte]⟩

/-- A bootloader table at one page and sixteen usable frames. -/
def bootMap : List MemoryRegion := [⟨0x40000, 0x50000, .usable⟩, ⟨0x1000, 0x2000, .bootloader⟩]

/-- With an empty root table in frame 1 the page is tried. -/
theorem boot_reports_right_bootMap :
    ∃ lines m' pte, bootPaging (.insertion _) (.insertion _) bootMap 0x3000 (some 0)
        (fun _ => 0) 0x1000 = some (lines, m') ∧ .mapRw testWord pte true ∈ lines := by
  have hmap : memoryMap (.insertion _) bootMap = some (.ok [(0x40000, 0x50000)]) := by decide
  have hok : (FrameAllocator.empty.init (.insertion _) [(0x40000, 0x50000)] 0x43000).map
      (fun r => r.map fun a => freeList a.active) = some (.ok (List.range' 0x43 13)) := by decide
  obtain ⟨r, hr, hlist⟩ := Option.map_eq_some_iff.mp hok
  cases r with
  | error e => cases hlist
  | ok a =>
    have hlen : freeList a.active = List.range' 0x43 13 := Except.ok.inj hlist
    have htables : TablesApart bootMap ⟨fun _ => 0, .empty, 0x1000⟩ := by
      refine ⟨blankMachine_tree, ?_, by simp [bootMap]⟩
      rintro r hr hkind u ⟨q, -, hn⟩
      obtain rfl := (node_blankMachine hn).2
      revert r
      decide
    have hfloor : frameFloor 0x3000 = some 0x43000 := by decide
    obtain ⟨lines, m', hrun, -, -, htry⟩ := boot_reports_right hmap hfloor hr htables (some 0)
    have hregion : Machine.findFreeTopIndex
        (⟨fun _ => 0, .empty, 0x1000⟩ : Machine FrameAllocator) = some 0 := by
      rw [Machine.findFreeTopIndex, @List.finRange_succ 511]
      exact List.find?_cons_of_pos (by decide)
    obtain ⟨pte, hpte⟩ := htry (by simp) (by simp [hlen]) (by simp [hregion])
    exact ⟨lines, m', pte, hrun, hpte⟩

end LionOS.Boot
