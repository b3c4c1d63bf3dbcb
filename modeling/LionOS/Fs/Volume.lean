import LionOS.Lib.Memory

/-!
# The FAT volume

A device is what it returns for each sector, or nothing where a read fails. The FAT
links the clusters of a file or a directory. Every walk follows it one entry at a
time and trusts nothing in it.

Sector numbers are 32-bit words and their sums are checked: a sum that does not fit
stops the kernel, which is `none` in what follows.
-/

namespace LionOS.Fs

open Lib

/-- A 512-byte sector; only the bytes below 512 are looked at. -/
abbrev Sector := Mem

/-- What a device returns for each sector, `none` where the read fails. -/
abbrev BlockDevice := Nat → Option Sector

/-- Validated FAT metadata for a mounted volume. -/
structure FatInfo where
  bytes : UInt32
  sectorsPerCluster : UInt8
  reservedSectors : UInt16
  fatCount : UInt8
  totalSectors : UInt32
  sectorsPerFat : UInt32
  rootCluster : UInt32
  /-- Sector where cluster 2 begins. -/
  dataStart : UInt32
  deriving DecidableEq, Repr

/-- FAT entries have 28 bits. -/
def fat32Last : Nat := 0x0FFFFFFF

/-- The 16-bit number at a byte offset. -/
def rd16 (b : Sector) (off : Nat) : Nat := readLE b off 2

/-- The 32-bit number at a byte offset. -/
def rd32 (b : Sector) (off : Nat) : Nat := readLE b off 4

/-- Not a data cluster that can be walked. -/
def isChainEnd (c : Nat) : Bool := c < 2 || 0x0FFFFFF7 ≤ c

/-- A sector number, which must fit 32 bits. -/
def checked32 (n : Nat) : Option Nat := if n < 2 ^ 32 then some n else none

theorem checked32_of_lt {n : Nat} (h : n < 2 ^ 32) : checked32 n = some n := if_pos h

theorem checked32_eq_some {n k : Nat} (h : checked32 n = some k) : k = n := by
  unfold checked32 at h
  split at h
  · exact (Option.some.inj h).symm
  · exact absurd h (by simp)

namespace FatInfo

/-- Sectors in a cluster. -/
def spc (info : FatInfo) : Nat := info.sectorsPerCluster.toNat

/-- The first sector of a cluster. -/
def firstSector (info : FatInfo) (c : Nat) : Nat := info.dataStart.toNat + (c - 2) * info.spc

end FatInfo

/-- The FAT entry of cluster `c`; `none` outside the FAT or where the read fails. -/
def readFatEntry (dev : BlockDevice) (info : FatInfo) (c : Nat) : Option Nat :=
  let byteOff := c * 4
  if info.sectorsPerFat.toNat ≤ byteOff / 512 then none
  else
    match dev (info.reservedSectors.toNat + byteOff / 512) with
    | none => none
    | some s => some (rd32 s (byteOff % 512) &&& fat32Last)

/-- The cluster a walk goes to after `c`. -/
def nextCluster (dev : BlockDevice) (info : FatInfo) (c : Nat) : Option Nat :=
  match readFatEntry dev info c with
  | none => none
  | some next => if isChainEnd next then none else some next

/-- The cluster of a walk from `first` after `n` steps. -/
def clusterAt (dev : BlockDevice) (info : FatInfo) (first : Nat) : Nat → Option Nat
  | 0 => if isChainEnd first then none else some first
  | n + 1 => (clusterAt dev info first n).bind (nextCluster dev info)

/-- The cluster's sectors lie in the volume. -/
def FatInfo.IsData (info : FatInfo) (c : Nat) : Prop :=
  isChainEnd c = false ∧ info.firstSector c + info.spc ≤ info.totalSectors.toNat

instance (info : FatInfo) (c : Nat) : Decidable (info.IsData c) :=
  inferInstanceAs (Decidable (_ ∧ _))

/-- Data clusters that the FAT links in order, the last one to an end-of-chain mark. -/
inductive Chain (dev : BlockDevice) (info : FatInfo) : List Nat → Prop
  | last {c mark : Nat} (hc : info.IsData c) (h : readFatEntry dev info c = some mark)
      (hmark : 0x0FFFFFF8 ≤ mark) : Chain dev info [c]
  | link {c c' : Nat} {cs : List Nat} (hc : info.IsData c)
      (h : readFatEntry dev info c = some c') (hcs : Chain dev info (c' :: cs)) :
      Chain dev info (c :: c' :: cs)

/-- Every sector of the volume can be read. -/
def AllRead (dev : BlockDevice) (info : FatInfo) : Prop :=
  ∀ lba < info.totalSectors.toNat, ∃ b, dev lba = some b

section

variable {dev : BlockDevice} {info : FatInfo} {c c' : Nat} {cs : List Nat}

theorem Chain.isData (h : Chain dev info (c :: cs)) : info.IsData c := by
  cases h with
  | last hc => exact hc
  | link hc => exact hc

/-- The walk ends behind the last cluster. -/
theorem Chain.nextCluster_last (h : Chain dev info [c]) : nextCluster dev info c = none := by
  cases h with
  | @last _ mark hc h hmark =>
    have hend : isChainEnd mark = true := by
      simp only [isChainEnd, Bool.or_eq_true, decide_eq_true_eq]
      omega
    simp only [nextCluster, h, hend, if_true]

/-- The walk goes from each cluster to the next. -/
theorem Chain.nextCluster_link (h : Chain dev info (c :: c' :: cs)) :
    nextCluster dev info c = some c' ∧ Chain dev info (c' :: cs) := by
  cases h with
  | link hc h hcs =>
    refine ⟨?_, hcs⟩
    simp only [nextCluster, h, hcs.isData.1, Bool.false_eq_true, if_false]

theorem FatInfo.IsData.firstSector_lt (h : info.IsData c) : info.firstSector c < 2 ^ 32 := by
  have htotal := info.totalSectors.toNat_lt
  have hend := h.2
  omega

/-- The sectors of a data cluster have 32-bit numbers and can be read. -/
theorem FatInfo.IsData.sector (h : info.IsData c) (hread : AllRead dev info) {s : Nat}
    (hs : s < info.spc) :
    info.firstSector c + s < 2 ^ 32 ∧ ∃ b, dev (info.firstSector c + s) = some b := by
  have htotal := info.totalSectors.toNat_lt
  have hend := h.2
  exact ⟨by omega, hread _ (by omega)⟩

theorem Chain.nextCluster_getElem? (h : Chain dev info cs) {k : Nat} (hk : cs[k]? = some c) :
    nextCluster dev info c = cs[k + 1]? := by
  induction h generalizing k with
  | last hc h hmark =>
    cases k with
    | zero =>
      obtain rfl := Option.some.inj hk
      exact (Chain.last hc h hmark).nextCluster_last
    | succ k => simp at hk
  | link hc h hcs ih =>
    cases k with
    | zero =>
      obtain rfl := Option.some.inj hk
      exact (Chain.link hc h hcs).nextCluster_link.1
    | succ k => exact ih hk

/-- A chain's walk visits its clusters. -/
theorem Chain.clusterAt_eq (h : Chain dev info (c :: cs)) (k : Nat) :
    clusterAt dev info c k = (c :: cs)[k]? := by
  induction k with
  | zero => simp [clusterAt, h.isData.1]
  | succ k ih =>
    rw [clusterAt, ih]
    cases hk : (c :: cs)[k]? with
    | none =>
      have hlen := List.getElem?_eq_none_iff.mp hk
      rw [Option.bind_none, List.getElem?_eq_none (by omega)]
    | some c' => exact h.nextCluster_getElem? hk

end

end LionOS.Fs
