import LionOS.Lib.Bits
import Mathlib.Data.List.Flatten
import Mathlib.Data.UInt
import Mathlib.Tactic.Common

/-!
# PCI enumeration

The driver looks at all slots of bus 0. Functions 1 to 7 of a slot are looked at only behind a
multi-function header, and function 0 is listed only if none of the others was.
-/

namespace LionOS.Drivers

open Lib

/-- The configuration space behind the host bridge: the 32-bit registers of each function, by bus,
slot, function and number of the register. -/
abbrev ConfigSpace := (bus slot func reg : Nat) → UInt32

/-- The word for the address port of configuration mechanism #1. -/
def configAddress (bus slot func offset : Nat) : Nat :=
  0x80000000 ||| (bus <<< 16) ||| (slot <<< 11) ||| (func <<< 8) ||| (offset &&& 0xFC)

/-- What the host bridge has on the data port. -/
def ConfigSpace.data (cfg : ConfigSpace) (addr : Nat) : UInt32 :=
  cfg (addr / 2 ^ 16 % 2 ^ 8) (addr / 2 ^ 11 % 2 ^ 5) (addr / 2 ^ 8 % 2 ^ 3) (addr / 2 ^ 2 % 2 ^ 6)

/-- Read a 32-bit register. -/
def configRead (cfg : ConfigSpace) (bus slot func offset : Nat) : UInt32 :=
  cfg.data (configAddress bus slot func offset)

structure PciDevice where
  bus : Nat
  slot : Nat
  func : Nat
  vendor : UInt16
  device : UInt16
  baseClass : UInt8
  subclass : UInt8
  deriving DecidableEq

/-- A vendor that is neither all ones nor zero. -/
def isPresent (vd : UInt32) : Bool :=
  let vendor := (vd &&& 0xFFFF).toUInt16
  vendor != 0xFFFF && vendor != 0x0000

/-- The record of a function with this vendor and device word. -/
def deviceRecord (cfg : ConfigSpace) (slot func : Nat) (vd : UInt32) : PciDevice :=
  let reg := configRead cfg 0 slot func 0x08
  { bus := 0, slot, func
    vendor := (vd &&& 0xFFFF).toUInt16
    device := (vd >>> 16).toUInt16
    baseClass := (reg >>> 24).toUInt8
    subclass := (reg >>> 16).toUInt8 }

/-- A turn of the loop over functions 1 to 7, with the list and `funcs_found`. -/
def probeFunc (cfg : ConfigSpace) (slot : Nat) (state : List PciDevice × Nat) (func : Nat) :
    List PciDevice × Nat :=
  let fvd := configRead cfg 0 slot func 0x00
  if isPresent fvd then (state.1 ++ [deviceRecord cfg slot func fvd], state.2 + 1) else state

/-- A turn of the loop over the slots. -/
def probeSlot (cfg : ConfigSpace) (found : List PciDevice) (slot : Nat) : List PciDevice :=
  let vd := configRead cfg 0 slot 0 0x00
  if isPresent vd then
    let multi := (configRead cfg 0 slot 0 0x0C >>> 16) &&& 0x80 != 0
    let (found, funcsFound) :=
      if multi then (List.range' 1 7).foldl (probeFunc cfg slot) (found, 0) else (found, 0)
    if funcsFound = 0 then found ++ [deviceRecord cfg slot 0 vd] else found
  else found

/-- Enumerate bus 0 for present devices. -/
def probeBus0 (cfg : ConfigSpace) : List PciDevice :=
  (List.range 32).foldl (probeSlot cfg) []

/-- The address in base address register `bar`; there is none if the offset of the register does
not fit its byte. Bit 0 is set for a port. -/
def barAddr (cfg : ConfigSpace) (d : PciDevice) (bar : Nat) : Option Nat :=
  let off := 0x10 + 4 * bar
  if off < 2 ^ 8 then
    let raw := configRead cfg d.bus d.slot d.func off
    some (if raw &&& 1 = 1 then (raw &&& 0xFFFFFFFC).toNat else (raw &&& 0xFFFFFFF0).toNat)
  else none

variable {cfg : ConfigSpace} {bus slot func offset : Nat} {d : PciDevice}

theorem configAddress_eq (hslot : slot < 2 ^ 5) (hfunc : func < 2 ^ 3) (hbus : bus < 2 ^ 8) :
    configAddress bus slot func offset =
      2 ^ 31 + bus * 2 ^ 16 + slot * 2 ^ 11 + func * 2 ^ 8 + offset / 2 ^ 2 % 2 ^ 6 * 2 ^ 2 := by
  have hreg : offset &&& 0xFC = offset / 2 ^ 2 % 2 ^ 6 * 2 ^ 2 := and_field offset 2 6
  have hlow := Nat.mod_lt (offset / 2 ^ 2) (show 0 < 2 ^ 6 by decide)
  rw [configAddress, hreg, Nat.or_assoc, Nat.or_assoc, Nat.or_assoc,
    ← Nat.shiftLeft_add_eq_or_of_lt (show _ < 2 ^ 8 by omega), Nat.shiftLeft_eq func,
    ← Nat.shiftLeft_add_eq_or_of_lt (show _ < 2 ^ 11 by omega), Nat.shiftLeft_eq slot,
    ← Nat.shiftLeft_add_eq_or_of_lt (show _ < 2 ^ 16 by omega), Nat.shiftLeft_eq bus]
  have hbit := Nat.shiftLeft_add_eq_or_of_lt (i := 31)
    (show bus * 2 ^ 16 + (slot * 2 ^ 11 + (func * 2 ^ 8 + offset / 2 ^ 2 % 2 ^ 6 * 2 ^ 2)) < 2 ^ 31
      by omega) 1
  rw [Nat.shiftLeft_eq] at hbit
  change 1 * 2 ^ 31 ||| _ = _
  rw [← hbit]
  omega

/-- Each register is read at its own address. -/
theorem configRead_eq (cfg : ConfigSpace) (hbus : bus < 2 ^ 8) (hslot : slot < 2 ^ 5)
    (hfunc : func < 2 ^ 3) (hoffset : offset < 2 ^ 8) :
    configRead cfg bus slot func offset = cfg bus slot func (offset / 4) := by
  rw [configRead, ConfigSpace.data, configAddress_eq hslot hfunc hbus]
  congr 1
  all_goals omega

/-- Function 0 of the slot is there. -/
def SlotPresent (cfg : ConfigSpace) (slot : Nat) : Prop := isPresent (cfg 0 slot 0 0) = true

/-- The header type of function 0 has the multi-function bit. -/
def MultiFunction (cfg : ConfigSpace) (slot : Nat) : Prop :=
  (cfg 0 slot 0 3 >>> 16) &&& 0x80 ≠ 0

/-- A function of bus 0: function 0 of a slot, or a further function of a multi-function slot. -/
def FunctionExists (cfg : ConfigSpace) (slot func : Nat) : Prop :=
  slot < 32 ∧ SlotPresent cfg slot ∧
    (func = 0 ∨ MultiFunction cfg slot ∧ 1 ≤ func ∧ func < 8 ∧ isPresent (cfg 0 slot func 0) = true)

/-- What the registers say about a function. -/
def functionRecord (cfg : ConfigSpace) (slot func : Nat) : PciDevice :=
  { bus := 0, slot, func
    vendor := (cfg 0 slot func 0 &&& 0xFFFF).toUInt16
    device := (cfg 0 slot func 0 >>> 16).toUInt16
    baseClass := (cfg 0 slot func 2 >>> 24).toUInt8
    subclass := (cfg 0 slot func 2 >>> 16).toUInt8 }

/-- The order in which the functions are looked at. -/
def PciDevice.Before (a b : PciDevice) : Prop :=
  a.slot < b.slot ∨ a.slot = b.slot ∧ a.func < b.func

/-- A list has the functions that exist and no others, each with its registers, in order and
without duplicates. -/
structure Enumerates (cfg : ConfigSpace) (found : List PciDevice) : Prop where
  ordered : found.Pairwise PciDevice.Before
  mem_iff : ∀ d, d ∈ found ↔
    FunctionExists cfg d.slot d.func ∧ d = functionRecord cfg d.slot d.func

instance (slot : Nat) : Decidable (MultiFunction cfg slot) :=
  inferInstanceAs (Decidable (_ ≠ _))

/-- The functions 1 to 7 of a slot that are there. -/
def furtherFunctions (cfg : ConfigSpace) (slot : Nat) : List Nat :=
  (List.range' 1 7).filter fun func => isPresent (cfg 0 slot func 0)

/-- The functions of a slot that are listed. -/
def listedFunctions (cfg : ConfigSpace) (slot : Nat) : List Nat :=
  if isPresent (cfg 0 slot 0 0) then
    if MultiFunction cfg slot ∧ furtherFunctions cfg slot ≠ [] then furtherFunctions cfg slot
    else [0]
  else []

theorem deviceRecord_eq (hslot : slot < 32) (hfunc : func < 8) :
    deviceRecord cfg slot func (cfg 0 slot func 0) = functionRecord cfg slot func := by
  rw [deviceRecord, configRead_eq cfg (by decide) hslot hfunc (by decide)]
  rfl

theorem probeFunc_eq (hslot : slot < 32) (hfunc : func < 8) (found : List PciDevice) (n : Nat) :
    probeFunc cfg slot (found, n) func =
      if isPresent (cfg 0 slot func 0) then (found ++ [functionRecord cfg slot func], n + 1)
      else (found, n) := by
  rw [probeFunc, configRead_eq cfg (by decide) hslot hfunc (by decide), Nat.zero_div,
    deviceRecord_eq hslot hfunc]

theorem foldl_probeFunc (hslot : slot < 32) (funcs : List Nat) (hfuncs : ∀ f ∈ funcs, f < 8)
    (found : List PciDevice) (n : Nat) :
    funcs.foldl (probeFunc cfg slot) (found, n) =
      (found ++ (funcs.filter fun f => isPresent (cfg 0 slot f 0)).map (functionRecord cfg slot),
        n + (funcs.filter fun f => isPresent (cfg 0 slot f 0)).length) := by
  induction funcs generalizing found n with
  | nil => rw [List.foldl_nil, List.filter_nil, List.map_nil, List.append_nil]; rfl
  | cons f funcs ih =>
    have hrest := ih fun g hg => hfuncs g (List.mem_cons_of_mem _ hg)
    rw [List.foldl_cons, probeFunc_eq hslot (hfuncs f (List.mem_cons_self ..)), List.filter_cons]
    split
    · rw [hrest, List.map_cons, List.length_cons, List.append_assoc, List.singleton_append]
      congr 1
      omega
    · exact hrest found n

theorem mem_range_seven {f : Nat} : f ∈ List.range' 1 7 ↔ 1 ≤ f ∧ f < 8 := by
  rw [List.mem_range'_1]

private theorem foldl_probeFunc_range (hslot : slot < 32) (found : List PciDevice) :
    (List.range' 1 7).foldl (probeFunc cfg slot) (found, 0) =
      (found ++ (furtherFunctions cfg slot).map (functionRecord cfg slot),
        (furtherFunctions cfg slot).length) := by
  rw [foldl_probeFunc hslot _ fun f hf => (mem_range_seven.mp hf).2, Nat.zero_add]
  rfl

private theorem probeSlot_eq (hslot : slot < 32) (found : List PciDevice) :
    probeSlot cfg found slot =
      found ++ (listedFunctions cfg slot).map (functionRecord cfg slot) := by
  have hmulti : ((configRead cfg 0 slot 0 0x0C >>> 16) &&& 0x80 != 0) = true ↔
      MultiFunction cfg slot := by
    rw [configRead_eq cfg (by decide) hslot (by decide) (by decide), bne_iff_ne]
    rfl
  have hvd : configRead cfg 0 slot 0 0x00 = cfg 0 slot 0 0 :=
    configRead_eq cfg (by decide) hslot (by decide) (by decide)
  rw [probeSlot, listedFunctions, hvd]
  by_cases hpresent : isPresent (cfg 0 slot 0 0) = true
  · rw [if_pos hpresent, if_pos hpresent]
    dsimp only
    by_cases hmf : MultiFunction cfg slot
    · rw [if_pos (hmulti.mpr hmf), foldl_probeFunc_range hslot]
      dsimp only
      by_cases hnone : furtherFunctions cfg slot = []
      · rw [hnone, List.length_nil, if_pos rfl, if_neg fun h => h.2 rfl, List.map_nil,
          List.append_nil, deviceRecord_eq hslot (by decide)]
        rfl
      · rw [if_neg fun h => hnone (List.length_eq_zero_iff.mp h), if_pos ⟨hmf, hnone⟩]
    · rw [if_neg fun h => hmf (hmulti.mp h)]
      dsimp only
      rw [if_pos rfl, if_neg fun h => hmf h.1, deviceRecord_eq hslot (by decide)]
      rfl
  · rw [if_neg hpresent, if_neg hpresent, List.map_nil, List.append_nil]

/-- The list is made slot by slot. -/
theorem probeBus0_eq (cfg : ConfigSpace) :
    probeBus0 cfg = (List.range 32).flatMap fun slot =>
      (listedFunctions cfg slot).map (functionRecord cfg slot) := by
  have hfold : ∀ slots : List Nat, (∀ s ∈ slots, s < 32) → ∀ found,
      slots.foldl (probeSlot cfg) found = found ++ slots.flatMap fun slot =>
        (listedFunctions cfg slot).map (functionRecord cfg slot) := by
    intro slots
    induction slots with
    | nil => exact fun _ found => (List.append_nil found).symm
    | cons slot slots ih =>
      intro hslots found
      rw [List.foldl_cons, probeSlot_eq (hslots slot (List.mem_cons_self ..)),
        ih fun s hs => hslots s (List.mem_cons_of_mem _ hs), List.flatMap_cons, List.append_assoc]
  rw [probeBus0, hfold (List.range 32) (fun s hs => List.mem_range.mp hs), List.nil_append]

theorem mem_furtherFunctions :
    func ∈ furtherFunctions cfg slot ↔
      1 ≤ func ∧ func < 8 ∧ isPresent (cfg 0 slot func 0) = true := by
  rw [furtherFunctions, List.mem_filter, mem_range_seven, and_assoc]

/-- Function 0 is left out as soon as another function is listed. -/
theorem mem_listedFunctions :
    func ∈ listedFunctions cfg slot ↔ SlotPresent cfg slot ∧
      (MultiFunction cfg slot ∧ 1 ≤ func ∧ func < 8 ∧ isPresent (cfg 0 slot func 0) = true ∨
        func = 0 ∧ ¬ (MultiFunction cfg slot ∧ furtherFunctions cfg slot ≠ [])) := by
  unfold listedFunctions SlotPresent
  by_cases hpresent : isPresent (cfg 0 slot 0 0) = true
  · rw [if_pos hpresent]
    by_cases hmulti : MultiFunction cfg slot ∧ furtherFunctions cfg slot ≠ []
    · rw [if_pos hmulti, mem_furtherFunctions]
      simp [hpresent, hmulti]
    · rw [if_neg hmulti, List.mem_singleton]
      constructor
      · exact fun h => ⟨hpresent, .inr ⟨h, hmulti⟩⟩
      · rintro ⟨-, ⟨hmf, hfunc⟩ | h⟩
        · exact absurd ⟨hmf, List.ne_nil_of_mem (mem_furtherFunctions.mpr hfunc)⟩ hmulti
        · exact h.1
  · simp [hpresent]

theorem mem_probeBus0 :
    d ∈ probeBus0 cfg ↔
      d.slot < 32 ∧ d.func ∈ listedFunctions cfg d.slot ∧ d = functionRecord cfg d.slot d.func := by
  rw [probeBus0_eq, List.mem_flatMap]
  constructor
  · rintro ⟨slot, hslot, hd⟩
    obtain ⟨func, hfunc, rfl⟩ := List.mem_map.mp hd
    exact ⟨List.mem_range.mp hslot, hfunc, rfl⟩
  · rintro ⟨hslot, hfunc, hd⟩
    exact ⟨d.slot, List.mem_range.mpr hslot, List.mem_map.mpr ⟨d.func, hfunc, hd.symm⟩⟩

/-- What is listed exists. -/
theorem functionExists_of_mem (h : d ∈ probeBus0 cfg) :
    FunctionExists cfg d.slot d.func ∧ d = functionRecord cfg d.slot d.func := by
  obtain ⟨hslot, hfunc, hd⟩ := mem_probeBus0.mp h
  obtain ⟨hpresent, hfunc | hfunc⟩ := mem_listedFunctions.mp hfunc
  · exact ⟨⟨hslot, hpresent, .inr hfunc⟩, hd⟩
  · exact ⟨⟨hslot, hpresent, .inl hfunc.1⟩, hd⟩

private theorem pairwise_listedFunctions (cfg : ConfigSpace) (slot : Nat) :
    (listedFunctions cfg slot).Pairwise (· < ·) := by
  unfold listedFunctions
  split
  · split
    · exact List.Pairwise.filter _ List.pairwise_lt_range'
    · exact List.pairwise_singleton _ _
  · exact List.Pairwise.nil

/-- The list is in order, whatever is left out. -/
theorem probeBus0_ordered (cfg : ConfigSpace) : (probeBus0 cfg).Pairwise PciDevice.Before := by
  rw [probeBus0_eq, List.pairwise_flatMap]
  constructor
  · intro slot _
    rw [List.pairwise_map]
    exact (pairwise_listedFunctions cfg slot).imp fun h => .inr ⟨rfl, h⟩
  · apply List.pairwise_lt_range.imp
    intro s t hst a ha b hb
    obtain ⟨f, -, rfl⟩ := List.mem_map.mp ha
    obtain ⟨g, -, rfl⟩ := List.mem_map.mp hb
    exact .inl hst

/-- The enumeration is exact exactly if no multi-function device has a second function: where
one has, its function 0 is not in the list. -/
theorem enumerates_iff (cfg : ConfigSpace) :
    Enumerates cfg (probeBus0 cfg) ↔
      ∀ slot < 32, SlotPresent cfg slot → MultiFunction cfg slot →
        ∀ func, 1 ≤ func → func < 8 → isPresent (cfg 0 slot func 0) = false := by
  constructor
  · intro h slot hslot hpresent hmulti func hone height
    by_contra hfunc
    rw [Bool.not_eq_false] at hfunc
    have hzero : functionRecord cfg slot 0 ∈ probeBus0 cfg :=
      (h.mem_iff _).mpr ⟨⟨hslot, hpresent, .inl rfl⟩, rfl⟩
    obtain ⟨-, hlisted, -⟩ := mem_probeBus0.mp hzero
    obtain ⟨-, hlisted | ⟨-, hnone⟩⟩ := mem_listedFunctions.mp hlisted
    · exact Nat.not_succ_le_zero 0 hlisted.2.1
    · exact hnone ⟨hmulti, List.ne_nil_of_mem (mem_furtherFunctions.mpr ⟨hone, height, hfunc⟩)⟩
  · intro h
    refine ⟨probeBus0_ordered cfg, fun d => ⟨functionExists_of_mem, ?_⟩⟩
    rintro ⟨⟨hslot, hpresent, hfunc⟩, hd⟩
    refine mem_probeBus0.mpr ⟨hslot, mem_listedFunctions.mpr ⟨hpresent, ?_⟩, hd⟩
    rcases hfunc with hzero | hfunc
    · refine .inr ⟨hzero, fun ⟨hmulti, hsome⟩ => ?_⟩
      obtain ⟨func, hfunc⟩ := List.exists_mem_of_ne_nil _ hsome
      obtain ⟨hone, height, hfound⟩ := mem_furtherFunctions.mp hfunc
      rw [h d.slot hslot hpresent hmulti func hone height] at hfound
      exact Bool.false_ne_true hfound
    · exact .inl hfunc

/-- A chipset on slot 1: a bridge, and an IDE controller as function 1. -/
def chipset : ConfigSpace := fun _ slot func reg =>
  if slot = 1 ∧ func < 2 then [0x70008086, 0, 0x06010000, 0x00800000].getD reg 0
  else 0xFFFFFFFF

/-- The bridge is not found. -/
theorem chipset_not_enumerated :
    (probeBus0 chipset).map (fun d => (d.slot, d.func)) = [(1, 1)] ∧
      ¬ Enumerates chipset (probeBus0 chipset) := by
  constructor
  · rw [probeBus0_eq]
    decide
  · intro h
    have hzero : functionRecord chipset 1 0 ∈ probeBus0 chipset :=
      (h.mem_iff _).mpr ⟨⟨show 1 < 32 by decide, rfl, .inl rfl⟩, rfl⟩
    have hlisted := (mem_probeBus0.mp hzero).2.1
    exact absurd hlisted (by decide)

end LionOS.Drivers
