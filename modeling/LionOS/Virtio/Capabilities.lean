import LionOS.Drivers.Pci
import LionOS.Lib.Chain
import LionOS.User.Elf

/-!
# The capability list

`caps` follows the next bytes of the capability list and does not count its turns. Offsets are
bytes; a sum that does not fit stops the kernel.
-/

namespace LionOS.Virtio

open Lib Drivers User

def virtioCapId : UInt8 := 0x09

def cfgCommon : UInt8 := 0x01

def cfgNotify : UInt8 := 0x02

def cfgDevice : UInt8 := 0x04

/-- Why there is no result: an offset was too large, or the turns that were allowed are used up. -/
inductive CapsStop
  | overflow
  | turns
  deriving DecidableEq

/-- The sum of two offsets. -/
def byteAdd (a b : Nat) : Except CapsStop Nat :=
  if a + b < 2 ^ 8 then .ok (a + b) else .error .overflow

/-- The address in a base address register. -/
def barBase (cfg : ConfigSpace) (d : PciDevice) (bar : Nat) : Except CapsStop Nat :=
  match barAddr cfg d bar with
  | some base => .ok base
  | none => .error .overflow

/-- A byte of the configuration space of the device. -/
def cfg8 (cfg : ConfigSpace) (d : PciDevice) (off : Nat) : UInt8 :=
  let w := configRead cfg d.bus d.slot d.func (off &&& 0xFC)
  ((w >>> UInt32.ofNat (8 * (off &&& 3))) &&& 0xFF).toUInt8

/-- Four bytes, put together one by one. -/
def cfg32 (cfg : ConfigSpace) (d : PciDevice) (off : Nat) : Except CapsStop UInt32 :=
  [0, 1, 2, 3].foldlM (fun v i => do
    let at' ← byteAdd off i
    return v ||| ((cfg8 cfg d at').toUInt32 <<< UInt32.ofNat (8 * i))) 0

/-- What the walk has found: the addresses of the three parts, and the multiplier. -/
structure Caps where
  common : Nat
  notify : Nat
  notifyMult : UInt32
  device : Nat
  deriving DecidableEq

/-- Keep the address of a part, by its type. -/
def keepCap (cfg : ConfigSpace) (d : PciDevice) (cp : Nat) (typ : UInt8) (addr : Nat) (c : Caps) :
    Except CapsStop Caps :=
  if typ = cfgCommon then .ok { c with common := addr }
  else if typ = cfgNotify then do
    let mult ← cfg32 cfg d (← byteAdd cp 16)
    return { c with notify := addr, notifyMult := mult }
  else if typ = cfgDevice then .ok { c with device := addr }
  else .ok c

/-- The part of a turn for a virtio capability. -/
def readCap (cfg : ConfigSpace) (d : PciDevice) (cp : Nat) (c : Caps) : Except CapsStop Caps := do
  let typ := cfg8 cfg d (← byteAdd cp 3)
  let bar := cfg8 cfg d (← byteAdd cp 4)
  let off ← cfg32 cfg d (← byteAdd cp 8)
  let base ← barBase cfg d bar.toNat
  keepCap cfg d cp typ (base + off.toNat) c

/-- A turn takes in the virtio capabilities only. -/
def turnCap (cfg : ConfigSpace) (d : PciDevice) (cp : Nat) (c : Caps) : Except CapsStop Caps :=
  if cfg8 cfg d cp = virtioCapId then readCap cfg d cp c else .ok c

/-- The loop of `caps` for at most so many turns. -/
def capsLoop (cfg : ConfigSpace) (d : PciDevice) : (turns cp : Nat) → Caps → Except CapsStop Caps
  | 0, _, _ => .error .turns
  | turns + 1, cp, c =>
    if cp = 0 then .ok c
    else do
      let c ← turnCap cfg d cp c
      let next ← byteAdd cp 1
      capsLoop cfg d turns (cfg8 cfg d next).toNat c

/-- The capabilities of the device; none if there is no common configuration. -/
def caps (cfg : ConfigSpace) (d : PciDevice) (turns : Nat) : Except CapsStop (Option Caps) := do
  let c ← capsLoop cfg d turns (cfg8 cfg d 0x34).toNat ⟨0, 0, 0, 0⟩
  return if c.common ≠ 0 then some c else none

variable {cfg : ConfigSpace} {d : PciDevice} {cp off a b r : Nat} {c : Caps}

theorem byteAdd_eq_ok : byteAdd a b = .ok r ↔ a + b < 2 ^ 8 ∧ a + b = r := by
  unfold byteAdd
  by_cases h : a + b < 2 ^ 8
  · rw [if_pos h, Except.ok.injEq, and_iff_right h]
  · rw [if_neg h]
    simp only [h, false_and, reduceCtorEq]

theorem cfg32_ok_iff : (∃ v, cfg32 cfg d off = .ok v) ↔ off + 3 < 2 ^ 8 := by
  constructor
  · rintro ⟨v, h⟩
    simp only [cfg32, List.foldlM_cons, bind_eq_ok, byteAdd_eq_ok] at h
    obtain ⟨-, -, -, -, -, -, -, ⟨-, ⟨hlast, -⟩, -⟩, -⟩ := h
    exact hlast
  · intro h
    have hadd : ∀ i < 4, byteAdd off i = .ok (off + i) := fun i hi =>
      byteAdd_eq_ok.mpr ⟨by omega, rfl⟩
    simp only [cfg32, List.foldlM_cons, List.foldlM_nil, hadd 0 (by decide), hadd 1 (by decide),
      hadd 2 (by decide), hadd 3 (by decide)]
    exact ⟨_, rfl⟩

/-- The register of the address is one of the configuration space. -/
def BarInSpace (cfg : ConfigSpace) (d : PciDevice) (cp : Nat) : Prop :=
  0x10 + 4 * (cfg8 cfg d (cp + 4)).toNat < 2 ^ 8

theorem barBase_ok_iff (bar : Nat) :
    (∃ base, barBase cfg d bar = .ok base) ↔ 0x10 + 4 * bar < 2 ^ 8 := by
  unfold barBase barAddr
  dsimp only
  by_cases h : 0x10 + 4 * bar < 2 ^ 8
  · rw [if_pos h]
    exact ⟨fun _ => h, fun _ => ⟨_, rfl⟩⟩
  · rw [if_neg h]
    exact ⟨fun ⟨_, hbase⟩ => (by cases hbase), fun hlt => absurd hlt h⟩

private theorem keepCap_ok_iff {typ : UInt8} {addr : Nat} :
    (∃ c', keepCap cfg d cp typ addr c = .ok c') ↔ (typ = cfgNotify → cp + 19 < 2 ^ 8) := by
  unfold keepCap
  split
  next h =>
    have hne : typ ≠ cfgNotify := by
      rw [h]
      decide
    exact ⟨fun _ heq => absurd heq hne, fun _ => ⟨_, rfl⟩⟩
  next =>
    split
    next h =>
      simp only [bind_eq_ok, byteAdd_eq_ok]
      constructor
      · rintro ⟨c', _, ⟨-, rfl⟩, mult, hmult, -⟩ -
        exact cfg32_ok_iff.mp ⟨mult, hmult⟩
      · intro hlt
        have hlast := hlt h
        obtain ⟨mult, hmult⟩ : ∃ v, cfg32 cfg d (cp + 16) = .ok v := cfg32_ok_iff.mpr hlast
        exact ⟨_, _, ⟨by omega, rfl⟩, mult, hmult, rfl⟩
    next h =>
      refine ⟨fun _ heq => absurd heq h, fun _ => ?_⟩
      split
      · exact ⟨_, rfl⟩
      · exact ⟨_, rfl⟩

theorem readCap_ok_iff :
    (∃ c', readCap cfg d cp c = .ok c') ↔ cp + 11 < 2 ^ 8 ∧ BarInSpace cfg d cp ∧
      (cfg8 cfg d (cp + 3) = cfgNotify → cp + 19 < 2 ^ 8) := by
  simp only [readCap, bind_eq_ok, byteAdd_eq_ok]
  constructor
  · rintro ⟨c', _, ⟨_, rfl⟩, _, ⟨_, rfl⟩, _, ⟨_, rfl⟩, off, hoff, base, hbase, hkeep⟩
    refine ⟨?_, (barBase_ok_iff _).mp ⟨base, hbase⟩, keepCap_ok_iff.mp ⟨c', hkeep⟩⟩
    exact cfg32_ok_iff.mp ⟨off, hoff⟩
  · rintro ⟨hfields, hbar, hmult⟩
    obtain ⟨off, hoff⟩ : ∃ v, cfg32 cfg d (cp + 8) = .ok v := cfg32_ok_iff.mpr hfields
    obtain ⟨base, hbase⟩ := (barBase_ok_iff _).mpr hbar
    obtain ⟨c', hkeep⟩ : ∃ c', keepCap cfg d cp _ (base + off.toNat) c = .ok c' :=
      keepCap_ok_iff.mpr hmult
    exact ⟨c', _, ⟨by omega, rfl⟩, _, ⟨by omega, rfl⟩, _, ⟨by omega, rfl⟩, off, hoff, base, hbase,
      hkeep⟩

/-- The offsets of a turn at `cp` all fit. -/
structure Room (cfg : ConfigSpace) (d : PciDevice) (cp : Nat) : Prop where
  next : cp + 1 < 2 ^ 8
  fields : cfg8 cfg d cp = virtioCapId → cp + 11 < 2 ^ 8
  bar : cfg8 cfg d cp = virtioCapId → BarInSpace cfg d cp
  multiplier : cfg8 cfg d cp = virtioCapId → cfg8 cfg d (cp + 3) = cfgNotify → cp + 19 < 2 ^ 8

/-- The next byte of a capability. -/
def nextCap (cfg : ConfigSpace) (d : PciDevice) (cp : Nat) : Nat := (cfg8 cfg d (cp + 1)).toNat

theorem room_iff (c : Caps) :
    Room cfg d cp ↔ (∃ c', turnCap cfg d cp c = .ok c') ∧ ∃ next, byteAdd cp 1 = .ok next := by
  have hnext : (∃ next, byteAdd cp 1 = .ok next) ↔ cp + 1 < 2 ^ 8 := by
    simp only [byteAdd_eq_ok, exists_and_left, exists_eq', and_true]
  rw [hnext, turnCap]
  by_cases hid : cfg8 cfg d cp = virtioCapId
  · rw [if_pos hid, readCap_ok_iff]
    constructor
    · exact fun h => ⟨⟨h.fields hid, h.bar hid, h.multiplier hid⟩, h.next⟩
    · exact fun ⟨⟨hfields, hbar, hmult⟩, hnext⟩ =>
        ⟨hnext, fun _ => hfields, fun _ => hbar, fun _ => hmult⟩
  · rw [if_neg hid]
    constructor
    · exact fun h => ⟨⟨c, rfl⟩, h.next⟩
    · exact fun ⟨_, hnext⟩ => ⟨hnext, fun h => absurd h hid, fun h => absurd h hid,
        fun h => absurd h hid⟩

theorem capsLoop_succ {turns : Nat} (hcp : cp ≠ 0) :
    capsLoop cfg d (turns + 1) cp c =
      (turnCap cfg d cp c >>= fun c => byteAdd cp 1 >>= fun next =>
        capsLoop cfg d turns (cfg8 cfg d next).toNat c) := if_neg hcp

/-- The capabilities from an offset on: each is the next of the one before, the last one has no
next, and every one has room for what is read of it. -/
structure CapList (cfg : ConfigSpace) (d : PciDevice) (cp : Nat) (l : List Nat) : Prop where
  seg : Seg (nextCap cfg d) cp l 0
  ne_zero : 0 ∉ l
  room : ∀ a ∈ l, Room cfg d a

theorem capList_of_ok {turns : Nat} {c c' : Caps} (h : capsLoop cfg d turns cp c = .ok c') :
    ∃ l, CapList cfg d cp l := by
  induction turns generalizing cp c with
  | zero => cases h
  | succ turns ih =>
    by_cases hcp : cp = 0
    · exact ⟨[], hcp, List.not_mem_nil, fun a ha => absurd ha List.not_mem_nil⟩
    · rw [capsLoop_succ hcp, bind_eq_ok] at h
      obtain ⟨c₁, hturn, h⟩ := h
      rw [bind_eq_ok] at h
      obtain ⟨next, hnext, h⟩ := h
      have hroom : Room cfg d cp := (room_iff c).mpr ⟨⟨c₁, hturn⟩, next, hnext⟩
      obtain ⟨-, rfl⟩ := byteAdd_eq_ok.mp hnext
      obtain ⟨l, hl⟩ := ih h
      refine ⟨cp :: l, ⟨rfl, hl.seg⟩, ?_, List.forall_mem_cons.mpr ⟨hroom, hl.room⟩⟩
      exact fun hmem => (List.mem_cons.mp hmem).elim (fun h0 => hcp h0.symm) hl.ne_zero

/-- A turn for each capability, and one to see that there is none left. -/
theorem capsLoop_ok {l : List Nat} (h : CapList cfg d cp l) (c : Caps) :
    ∃ c', capsLoop cfg d (l.length + 1) cp c = .ok c' := by
  induction l generalizing cp c with
  | nil => exact ⟨c, if_pos h.seg⟩
  | cons a l ih =>
    obtain ⟨hseg, hne, hroom⟩ := h
    obtain ⟨rfl, htail⟩ := hseg
    obtain ⟨⟨c₁, hturn⟩, next, hnext⟩ := (room_iff c).mp (hroom cp (List.mem_cons_self ..))
    obtain ⟨c', hrest⟩ := ih ⟨htail, fun hm => hne (List.mem_cons_of_mem _ hm),
      fun b hb => hroom b (List.mem_cons_of_mem _ hb)⟩ c₁
    have hcp : cp ≠ 0 := fun h0 => hne (h0 ▸ List.mem_cons_self ..)
    refine ⟨c', ?_⟩
    rw [List.length_cons, capsLoop_succ hcp, bind_eq_ok]
    refine ⟨c₁, hturn, bind_eq_ok.mpr ⟨next, hnext, ?_⟩⟩
    obtain ⟨-, rfl⟩ := byteAdd_eq_ok.mp hnext
    exact hrest

/-- The walk comes to an end, with no offset too large. -/
def CapsTerminates (cfg : ConfigSpace) (d : PciDevice) : Prop :=
  ∃ turns found, caps cfg d turns = .ok found

/-- The walk terminates exactly for a list: from the capabilities pointer, the next bytes come to
zero, and no capability on the way is too close to the end of the space. -/
theorem capsTerminates_iff (cfg : ConfigSpace) (d : PciDevice) :
    CapsTerminates cfg d ↔ ∃ l, CapList cfg d (cfg8 cfg d 0x34).toNat l := by
  constructor
  · rintro ⟨turns, found, h⟩
    obtain ⟨c, hloop, -⟩ := bind_eq_ok.mp h
    exact capList_of_ok hloop
  · rintro ⟨l, hl⟩
    obtain ⟨c, hloop⟩ := capsLoop_ok hl ⟨0, 0, 0, 0⟩
    exact ⟨l.length + 1, _, bind_eq_ok.mpr ⟨c, hloop, rfl⟩⟩

/-- A list that is its own rest: the capability at `0x40` has itself for the next. -/
def selfReferencing : ConfigSpace := fun _ _ _ reg =>
  if reg = 0 then 0x10411AF4 else if reg = 13 then 0x40 else if reg = 16 then 0x4000 else 0

theorem selfReferencing_not_terminates :
    isPresent (configRead selfReferencing 0 3 0 0) = true ∧
      ¬ CapsTerminates selfReferencing (deviceRecord selfReferencing 3 0 0x10411AF4) := by
  refine ⟨by decide, ?_⟩
  rintro ⟨turns, found, h⟩
  obtain ⟨c, hloop, -⟩ := bind_eq_ok.mp h
  obtain ⟨l, hl⟩ := capList_of_ok hloop
  have hstart : (cfg8 selfReferencing (deviceRecord selfReferencing 3 0 0x10411AF4) 0x34).toNat =
      0x40 := by decide
  have hseg := hl.seg
  rw [hstart] at hseg
  exact not_seg_of_loop (by decide) (by decide) l hseg

end LionOS.Virtio
