import LionOS.Boot.Handoff
import LionOS.Frames.Slots
import LionOS.Lib.Memory
import Mathlib.Data.UInt

/-!
# Setting up the queue

`setup_queue` takes four frames and tells the device where three of them are. It writes the low
half of each address and zero for the high half; the frame allocator knows no such limit.
-/

namespace LionOS.Virtio

open Lib Frames Boot Relation

/-- A store to the common configuration, by its offset. -/
inductive CommonStore
  | wr8 (off : Nat) (v : UInt8)
  | wr16 (off : Nat) (v : UInt16)
  | wr (off : Nat) (v : UInt32)
  deriving DecidableEq

/-- The common configuration after a store. -/
def CommonStore.apply (m : Mem) : CommonStore → Mem
  | .wr8 off v => writeLE m off 1 v.toNat
  | .wr16 off v => writeLE m off 2 v.toNat
  | .wr off v => writeLE m off 4 v.toNat

def commonStatus : Nat := 20

def commonQSel : Nat := 22

def commonQEnable : Nat := 28

def commonQDesc : Nat := 32

def commonQDriver : Nat := 40

def commonQDevice : Nat := 48

def statDriverOk : UInt8 := 0x04

/-- What `setup_queue` sets of the device record. -/
structure QueueFrames where
  qsz : UInt16
  frDesc : Nat
  frAvail : Nat
  frUsed : Nat
  frBuf : Nat
  deriving DecidableEq

/-- The addresses of so many frames, each taken from the allocator, as far as it has them. The
outer `none` is an address that does not fit a machine word. -/
def takeFrames : Nat → FrameAllocator → Option (Option (List Nat) × FrameAllocator)
  | 0, a => some (some [], a)
  | n + 1, a =>
    match a.allocate with
    | none => some (none, a)
    | some (f, a) =>
      if f * 4096 < 2 ^ 64 then
        (takeFrames n a).map fun taken => (taken.1.map (f * 4096 :: ·), taken.2)
      else none

/-- Four frames for the rings and the data. -/
def allocFrames (a : FrameAllocator) :
    Option (Option (Nat × Nat × Nat × Nat) × FrameAllocator) :=
  match takeFrames 4 a with
  | none => none
  | some (some [d, av, u, b], a) => some (some (d, av, u, b), a)
  | some (_, a) => some (none, a)

/-- The outcome of `setup_queue`: its answer, the record, the stores in their order, and the
allocator. -/
structure SetupRun where
  ok : Bool
  queue : QueueFrames
  stores : List CommonStore
  alloc : FrameAllocator

/-- `qsize` and `status` are what the device answers to the two reads. -/
def setupQueue (q : QueueFrames) (a : FrameAllocator) (qsize : UInt16) (status : UInt8) :
    Option SetupRun :=
  let stores := [.wr16 commonQSel 0]
  let q := { q with qsz := qsize }
  if q.qsz = 0 ∨ 256 < q.qsz then some ⟨false, q, stores, a⟩
  else
    match allocFrames a with
    | none => none
    | some (none, a) => some ⟨false, q, stores, a⟩
    | some (some (d, av, u, b), a) =>
      let stores := stores ++
        [.wr commonQDesc (UInt32.ofNat d), .wr (commonQDesc + 4) 0,
          .wr commonQDriver (UInt32.ofNat av), .wr (commonQDriver + 4) 0,
          .wr commonQDevice (UInt32.ofNat u), .wr (commonQDevice + 4) 0,
          .wr16 commonQEnable 1]
      let q := { q with frDesc := d, frAvail := av, frUsed := u, frBuf := b }
      some ⟨true, q, stores ++ [.wr8 commonStatus (status ||| statDriverOk)], a⟩

/-- The common configuration after the run. -/
def SetupRun.common (r : SetupRun) (m : Mem) : Mem := r.stores.foldl CommonStore.apply m

/-- The device is told the addresses that the driver uses. -/
structure RealAddresses (r : SetupRun) (m : Mem) : Prop where
  desc : read64 (r.common m) commonQDesc = r.queue.frDesc
  driver : read64 (r.common m) commonQDriver = r.queue.frAvail
  device : read64 (r.common m) commonQDevice = r.queue.frUsed

variable {a a' : FrameAllocator} {q : QueueFrames} {qsize : UInt16} {status : UInt8} {r : SetupRun}
  {m : Mem} {n : Nat} {l : List Nat}

/-- The frames are the first of the free list. -/
private theorem takeFrames_spec (h : takeFrames n a = some (some l, a')) :
    ∃ fs, l = fs.map (· * 4096) ∧ fs.length = n ∧
      freeList a.active = fs ++ freeList a'.active := by
  induction n generalizing a l with
  | zero =>
    obtain ⟨hl, rfl⟩ := Prod.mk.inj (Option.some.inj h)
    exact ⟨[], (Option.some.inj hl).symm, rfl, rfl⟩
  | succ n ih =>
    rcases a.allocate_spec with ⟨hnone, -⟩ | ⟨f, a₁, hsome, hfree, -⟩
    · rw [takeFrames, hnone] at h
      cases h
    · rw [takeFrames, hsome] at h
      dsimp only at h
      split at h
      · obtain ⟨⟨taken, a₂⟩, hrest, heq⟩ := Option.map_eq_some_iff.mp h
        obtain ⟨htaken, rfl⟩ := Prod.mk.inj heq
        obtain ⟨l₁, rfl, rfl⟩ := Option.map_eq_some_iff.mp htaken
        obtain ⟨fs, rfl, hlen, hfree'⟩ := ih hrest
        exact ⟨f :: fs, rfl, congrArg (· + 1) hlen, by rw [hfree, hfree', List.cons_append]⟩
      · cases h

theorem allocFrames_spec {d av u b : Nat} (h : allocFrames a = some (some (d, av, u, b), a')) :
    ∃ f₀ f₁ f₂ f₃, (d, av, u, b) = (f₀ * 4096, f₁ * 4096, f₂ * 4096, f₃ * 4096) ∧
      freeList a.active = f₀ :: f₁ :: f₂ :: f₃ :: freeList a'.active := by
  unfold allocFrames at h
  split at h
  · cases h
  next d₁ av₁ u₁ b₁ a₁ htaken =>
    cases h
    obtain ⟨fs, hfs, -, hfree⟩ := takeFrames_spec htaken
    match fs, hfs with
    | [f₀, f₁, f₂, f₃], hfs =>
      cases hfs
      exact ⟨f₀, f₁, f₂, f₃, rfl, hfree⟩
  · cases h

/-- If the queue is set up, it has the first four free frames. -/
theorem setupQueue_frames (h : setupQueue q a qsize status = some r) (hok : r.ok = true) :
    ∃ f₀ f₁ f₂ f₃, freeList a.active = f₀ :: f₁ :: f₂ :: f₃ :: freeList r.alloc.active ∧
      r.queue = ⟨qsize, f₀ * 4096, f₁ * 4096, f₂ * 4096, f₃ * 4096⟩ ∧
      r.stores = [.wr16 commonQSel 0,
        .wr commonQDesc (UInt32.ofNat (f₀ * 4096)), .wr (commonQDesc + 4) 0,
        .wr commonQDriver (UInt32.ofNat (f₁ * 4096)), .wr (commonQDriver + 4) 0,
        .wr commonQDevice (UInt32.ofNat (f₂ * 4096)), .wr (commonQDevice + 4) 0,
        .wr16 commonQEnable 1, .wr8 commonStatus (status ||| statDriverOk)] := by
  unfold setupQueue at h
  dsimp only at h
  split at h
  · cases h
    cases hok
  · split at h
    · cases h
    · cases h
      cases hok
    next d av u b a₁ hframes =>
      cases h
      obtain ⟨f₀, f₁, f₂, f₃, heq, hfree⟩ := allocFrames_spec hframes
      cases heq
      exact ⟨f₀, f₁, f₂, f₃, hfree, rfl, rfl⟩

/-- A register that is written in two halves, the high one with zero. -/
theorem read64_halves (m : Mem) (off : Nat) (v : UInt32) :
    read64 (writeLE (writeLE m off 4 v.toNat) (off + 4) 4 0) off = v.toNat := by
  have hv := v.toNat_lt
  rw [read64, readLE_append _ off 4 4, readLE_writeLE_of_apart _ _ (.inl le_rfl), readLE_writeLE,
    readLE_writeLE]
  omega

private theorem read64_writeLE_of_apart (m : Mem) {off b k : Nat} (v : Nat)
    (h : off + 8 ≤ b ∨ b + k ≤ off) : read64 (writeLE m b k v) off = read64 m off :=
  readLE_writeLE_of_apart m v h

/-- The registers of the queue are the low halves of the addresses. -/
theorem setupQueue_registers (h : setupQueue q a qsize status = some r) (hok : r.ok = true)
    (m : Mem) :
    read64 (r.common m) commonQDesc = r.queue.frDesc % 2 ^ 32 ∧
      read64 (r.common m) commonQDriver = r.queue.frAvail % 2 ^ 32 ∧
      read64 (r.common m) commonQDevice = r.queue.frUsed % 2 ^ 32 := by
  obtain ⟨f₀, f₁, f₂, f₃, -, hqueue, hstores⟩ := setupQueue_frames h hok
  rw [SetupRun.common, hstores, hqueue]
  simp only [List.foldl_cons, List.foldl_nil, CommonStore.apply, commonQSel, commonQDesc,
    commonQDriver, commonQDevice, commonQEnable, commonStatus, UInt32.toNat_zero]
  refine ⟨?_, ?_, ?_⟩
  · simp (disch := decide) only [read64_writeLE_of_apart]
    rw [read64_halves, UInt32.toNat_ofNat']
  · simp (disch := decide) only [read64_writeLE_of_apart]
    rw [read64_halves, UInt32.toNat_ofNat']
  · simp (disch := decide) only [read64_writeLE_of_apart]
    rw [read64_halves, UInt32.toNat_ofNat']

theorem realAddresses_of_lt (h : setupQueue q a qsize status = some r) (hok : r.ok = true)
    (hlow : ∀ f ∈ (freeList a.active).take 3, f < 2 ^ 20) (m : Mem) : RealAddresses r m := by
  obtain ⟨f₀, f₁, f₂, f₃, hfree, hqueue, -⟩ := setupQueue_frames h hok
  obtain ⟨hdesc, hdriver, hdevice⟩ := setupQueue_registers h hok m
  have h₀ := hlow f₀ (by simp [hfree])
  have h₁ := hlow f₁ (by simp [hfree])
  have h₂ := hlow f₂ (by simp [hfree])
  constructor
  · rw [hdesc, hqueue]
    exact Nat.mod_eq_of_lt (show f₀ * 4096 < 2 ^ 32 by omega)
  · rw [hdriver, hqueue]
    exact Nat.mod_eq_of_lt (show f₁ * 4096 < 2 ^ 32 by omega)
  · rw [hdevice, hqueue]
    exact Nat.mod_eq_of_lt (show f₂ * 4096 < 2 ^ 32 by omega)

private theorem lt_of_realAddresses (h : setupQueue q a qsize status = some r) (hok : r.ok = true)
    (hreal : RealAddresses r m) : ∀ f ∈ (freeList a.active).take 3, f < 2 ^ 20 := by
  obtain ⟨f₀, f₁, f₂, f₃, hfree, hqueue, -⟩ := setupQueue_frames h hok
  obtain ⟨hdesc, hdriver, hdevice⟩ := setupQueue_registers h hok m
  rw [hreal.desc, hqueue] at hdesc
  rw [hreal.driver, hqueue] at hdriver
  rw [hreal.device, hqueue] at hdevice
  dsimp only at hdesc hdriver hdevice
  rw [hfree]
  simp only [List.take_succ_cons, List.take_zero, List.forall_mem_cons]
  exact ⟨by omega, by omega, by omega, fun f hf => absurd hf List.not_mem_nil⟩

/-- The device is told the addresses of the rings exactly if the first three free frames lie
below 4 GiB. -/
theorem realAddresses_iff (q : QueueFrames) (a : FrameAllocator) (qsize : UInt16) (status : UInt8)
    (r : SetupRun) (h : setupQueue q a qsize status = some r) (hok : r.ok = true) (m : Mem) :
    RealAddresses r m ↔ ∀ f ∈ (freeList a.active).take 3, f < 2 ^ 20 :=
  ⟨lt_of_realAddresses h hok, fun hlow => realAddresses_of_lt h hok hlow m⟩

/-- Four frames from the second page on. -/
theorem realAddresses_iff_low :
    ∃ a r, FrameAllocator.empty.init (.insertion _) [(0x1000, 0x9000)] 0 = some (.ok a) ∧
      setupQueue ⟨0, 0, 0, 0, 0⟩ a 128 0x0B = some r ∧ r.ok = true ∧
      RealAddresses r fun _ => 0 := by
  have hsetup : ∃ r, setupQueue ⟨0, 0, 0, 0, 0⟩ (FrameAllocator.empty.install [⟨1, 8⟩] (by decide))
      128 0x0B = some r ∧ r.ok = true := ⟨_, rfl, rfl⟩
  obtain ⟨r, hr, hok⟩ := hsetup
  exact ⟨_, r, rfl, hr, hok, (realAddresses_iff _ _ _ _ r hr hok _).mpr (by decide)⟩

/-- Every frame the allocator has or has handed out lies below 4 GiB. -/
def AllLow (w : World) : Prop :=
  (∀ f ∈ freeList w.alloc.active, f < 2 ^ 20) ∧ ∀ f ∈ w.out, f < 2 ^ 20

theorem AllLow.init {a₀ : FrameAllocator} {s : KeySort FrameRun.start}
    {regions : List (Nat × Nat)} {floor : Nat} (h : a₀.init s regions floor = some (.ok a))
    (hlow : ∀ p ∈ regions, p.2 ≤ 2 ^ 32) : AllLow ⟨a, []⟩ := by
  refine ⟨fun f hf => ?_, fun f hf => absurd hf List.not_mem_nil⟩
  have hfree := (FrameAllocator.init_spec h).1
  dsimp only at hf
  rw [hfree, (freeList_perm (s.perm _)).mem_iff, mem_freeList] at hf
  obtain ⟨run, hrun, hmem⟩ := hf
  obtain ⟨p, hp, hrunOf⟩ := List.mem_filterMap.mp hrun
  have hbounds := (FrameAllocator.runOf_frames hrunOf hmem).2
  have hstop := hlow p hp
  unfold frameSize at hbounds
  omega

theorem AllLow.step {w w' : World} (h : AllLow w) (hstep : CallStep w w') : AllLow w' := by
  obtain ⟨hfree, hout⟩ := h
  cases hstep with
  | exhausted hc => exact ⟨hfree, hout⟩
  | @allocate f a hc =>
    rcases w.alloc.allocate_spec with ⟨hnone, -⟩ | ⟨f', a', hsome, hcons, -⟩
    · rw [hc] at hnone
      cases hnone
    · rw [hc] at hsome
      cases hsome
      rw [hcons] at hfree
      obtain ⟨hf, hrest⟩ := List.forall_mem_cons.mp hfree
      exact ⟨hrest, List.forall_mem_cons.mpr ⟨hf, hout⟩⟩
  | @deallocate s pre post f ho =>
    rw [ho, List.forall_mem_append, List.forall_mem_cons] at hout
    refine ⟨fun g hg => ?_, List.forall_mem_append.mpr ⟨hout.1, hout.2.2⟩⟩
    dsimp only at hg
    by_cases hm : w.alloc.runCount < maxRuns
    · rw [(freeList_deallocate_perm s f hm).mem_iff, List.mem_append,
        List.mem_singleton] at hg
      rcases hg with hg | rfl
      · exact hfree g hg
      · exact hout.2.1
    · rw [deallocate_of_full hm] at hg
      exact hfree g hg

theorem AllLow.of_calls {w w' : World} (h : AllLow w) (hrun : ReflTransGen CallStep w w') :
    AllLow w' := by
  induction hrun with
  | refl => exact h
  | tail _ hstep ih => exact ih.step hstep

/-- Where no usable region reaches above 4 GiB, the device is told the right addresses after any
calls of the allocator. -/
theorem realAddresses_of_low {a₀ : FrameAllocator} {s : KeySort FrameRun.start}
    {regions : List (Nat × Nat)} {floor : Nat} (hinit : a₀.init s regions floor = some (.ok a))
    (hlow : ∀ p ∈ regions, p.2 ≤ 2 ^ 32) {w : World} (hrun : ReflTransGen CallStep ⟨a, []⟩ w)
    (h : setupQueue q w.alloc qsize status = some r) (hok : r.ok = true) (m : Mem) :
    RealAddresses r m := by
  have hall := (AllLow.init hinit hlow).of_calls hrun
  exact realAddresses_of_lt h hok (fun f hf => hall.1 f (List.mem_of_mem_take hf)) m

/-- One usable frame below 4 GiB and sixteen from there on. -/
def splitMap : List MemoryRegion :=
  [⟨0x1000000, 0x1001000, .usable⟩, ⟨0x100000000, 0x100010000, .usable⟩]

/-- The allocator for it. -/
def splitFrames : FrameAllocator :=
  FrameAllocator.empty.install [⟨0x1000, 1⟩, ⟨0x100000, 16⟩] (by decide)

/-- The ring of available requests is at 4 GiB, and the device is told that it is at zero. -/
theorem device_told_zero :
    memoryMap (.insertion _) splitMap =
        some (.ok [(0x1000000, 0x1001000), (0x100000000, 0x100010000)]) ∧
      FrameAllocator.empty.init (.insertion _) [(0x1000000, 0x1001000), (0x100000000, 0x100010000)]
        0x400000 = some (.ok splitFrames) ∧
      ∃ r, setupQueue ⟨0, 0, 0, 0, 0⟩ splitFrames 128 0x0B = some r ∧ r.ok = true ∧
        r.queue.frAvail = 0x100000000 ∧ read64 (r.common fun _ => 0) commonQDriver = 0 ∧
        ¬ RealAddresses r fun _ => 0 := by
  have hsetup : ∃ r, setupQueue ⟨0, 0, 0, 0, 0⟩ splitFrames 128 0x0B = some r ∧ r.ok = true :=
    ⟨_, rfl, rfl⟩
  obtain ⟨r, hr, hok⟩ := hsetup
  obtain ⟨f₀, f₁, f₂, f₃, hfree, hqueue, -⟩ := setupQueue_frames hr hok
  have hsecond : (freeList splitFrames.active)[1]? = some 0x100000 := by decide +kernel
  rw [hfree] at hsecond
  have havail : r.queue.frAvail = 0x100000000 := by
    rw [hqueue]
    exact congrArg (· * 4096) (Option.some.inj hsecond)
  have hdriver := (setupQueue_registers hr hok fun _ => 0).2.1
  rw [havail] at hdriver
  refine ⟨by decide +kernel, rfl, r, hr, hok, havail, hdriver, fun hreal => ?_⟩
  have htold := hreal.driver
  rw [hdriver, havail] at htold
  exact absurd htold (by decide)

end LionOS.Virtio
