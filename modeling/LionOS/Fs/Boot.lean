import LionOS.Fs.Paths
import LionOS.User.Elf

/-!
# The boot sector

`parse_boot` checks the fields of a FAT32 boot sector one after another and derives the
sector where the data begins. The product of the FAT count and the FAT size is not
checked for overflow; the kernel stops where it does not fit.
-/

namespace LionOS.Fs

open Lib User

/-- Why a boot sector was rejected. -/
inductive FatError where
  | badSignature
  | unsupportedSectorSize
  | badSectorsPerCluster
  | badReserved
  | badFatCount
  | zeroTotal
  | badFatsParam
  | notFat32
  deriving DecidableEq, Repr

/-- `is_power_of_two`. -/
def isPowerOfTwo (n : UInt8) : Bool := n != 0 && n &&& (n - 1) == 0

/-- The sector count: the 16-bit field, or the 32-bit one where that is zero. -/
def bootTotal (b : Sector) : Nat := if rd16 b 19 ≠ 0 then rd16 b 19 else rd32 b 32

/-- The sectors of a FAT, in the same way. -/
def bootSectorsPerFat (b : Sector) : Nat := if rd16 b 22 ≠ 0 then rd16 b 22 else rd32 b 36

/-- Parse and validate a boot sector. -/
def parseBoot (b : Slice) : Option (Except FatError FatInfo) :=
  if b.len < 512 ∨ b.mem 510 ≠ 0x55 ∨ b.mem 511 ≠ 0xAA then some (.error .badSignature)
  else
    let bytesPerSec := rd16 b.mem 11
    if bytesPerSec ≠ 512 then some (.error .unsupportedSectorSize)
    else
      let secPerClus := b.mem 13
      if secPerClus = 0 ∨ !isPowerOfTwo secPerClus then some (.error .badSectorsPerCluster)
      else
        let reserved := rd16 b.mem 14
        if reserved = 0 then some (.error .badReserved)
        else
          let fatCount := b.mem 16
          if fatCount = 0 then some (.error .badFatCount)
          else
            let total := bootTotal b.mem
            if total = 0 then some (.error .zeroTotal)
            else
              let spf := bootSectorsPerFat b.mem
              if spf = 0 then some (.error .badFatsParam)
              else
                let rootCluster := rd32 b.mem 44
                if rootCluster < 2 then some (.error .notFat32)
                else do
                  let fats ← checked32 (fatCount.toNat * spf)
                  match checked32 (reserved + fats) with
                  | none => some (.error .zeroTotal)
                  | some dataStart =>
                    some (.ok
                      { bytes := UInt32.ofNat bytesPerSec
                        sectorsPerCluster := secPerClus
                        reservedSectors := UInt16.ofNat reserved
                        fatCount := fatCount
                        totalSectors := UInt32.ofNat total
                        sectorsPerFat := UInt32.ofNat spf
                        rootCluster := UInt32.ofNat rootCluster
                        dataStart := UInt32.ofNat dataStart })

/-- The bytes of a sector, as a slice. -/
def sectorSlice (s : Sector) : Slice := ⟨s, 512, by decide⟩

/-- Read sector 0 and validate it as a boot sector. -/
def mount (dev : BlockDevice) : Option (Except FatError Fs) :=
  match dev 0 with
  | none => some (.error .badSignature)
  | some s => (parseBoot (sectorSlice s)).map fun r => r.map fun info => ⟨info⟩

/-- What the checks of `parse_boot` in front of the sum let through. -/
structure Checked (b : Slice) : Prop where
  len : 512 ≤ b.len
  signature : b.mem 510 = 0x55 ∧ b.mem 511 = 0xAA
  bytesPerSector : rd16 b.mem 11 = 512
  sectorsPerCluster : ∃ k, (b.mem 13).toNat = 2 ^ k
  reserved : rd16 b.mem 14 ≠ 0
  fatCount : b.mem 16 ≠ 0
  total : bootTotal b.mem ≠ 0
  sectorsPerFat : bootSectorsPerFat b.mem ≠ 0
  rootCluster : 2 ≤ rd32 b.mem 44

/-- The sectors of all FATs. -/
def bootFats (b : Slice) : Nat := (b.mem 16).toNat * bootSectorsPerFat b.mem

/-- The fields of a boot sector. -/
def bootInfo (b : Slice) : FatInfo where
  bytes := UInt32.ofNat (rd16 b.mem 11)
  sectorsPerCluster := b.mem 13
  reservedSectors := UInt16.ofNat (rd16 b.mem 14)
  fatCount := b.mem 16
  totalSectors := UInt32.ofNat (bootTotal b.mem)
  sectorsPerFat := UInt32.ofNat (bootSectorsPerFat b.mem)
  rootCluster := UInt32.ofNat (rd32 b.mem 44)
  dataStart := UInt32.ofNat (rd16 b.mem 14 + bootFats b)

theorem isPowerOfTwo_iff (n : UInt8) : isPowerOfTwo n = true ↔ ∃ k, n.toNat = 2 ^ k := by
  have hsmall : ∀ m : Fin 256, isPowerOfTwo (UInt8.ofFin m) = true ↔
      ∃ k < 8, (UInt8.ofFin m).toNat = 2 ^ k := by
    decide +kernel
  rw [← UInt8.ofFin_toFin n, hsmall]
  constructor
  · rintro ⟨k, -, hk⟩
    exact ⟨k, hk⟩
  · rintro ⟨k, hk⟩
    refine ⟨k, ?_, hk⟩
    have hlt := (UInt8.ofFin n.toFin).toNat_lt
    rw [hk] at hlt
    exact (Nat.pow_lt_pow_iff_right (by decide)).mp hlt

/-- What the parser does with a boot sector that passes the checks. -/
theorem parseBoot_of_checked {b : Slice} (h : Checked b) :
    parseBoot b = (checked32 (bootFats b)).map fun fats =>
      if rd16 b.mem 14 + fats < 2 ^ 32 then .ok (bootInfo b) else .error .zeroTotal := by
  have hlen : ¬ (b.len < 512 ∨ b.mem 510 ≠ 0x55 ∨ b.mem 511 ≠ 0xAA) := by
    simp only [h.signature, ne_eq, not_true_eq_false, or_false, Nat.not_lt]
    exact h.len
  have hpow := (isPowerOfTwo_iff _).mpr h.sectorsPerCluster
  have hspc : ¬ (b.mem 13 = 0 ∨ (!isPowerOfTwo (b.mem 13)) = true) := by
    rw [hpow]
    rintro (hzero | hfalse)
    · rw [hzero] at hpow
      exact absurd hpow (by decide)
    · exact absurd hfalse (by decide)
  rw [parseBoot]
  simp only [hlen, h.bytesPerSector, hspc, h.reserved, h.fatCount, h.total, h.sectorsPerFat,
    Nat.not_lt.mpr h.rootCluster, ne_eq, not_true_eq_false, if_false]
  rw [show (b.mem 16).toNat * bootSectorsPerFat b.mem = bootFats b from rfl]
  cases hfats : checked32 (bootFats b) with
  | none => rfl
  | some fats =>
    obtain rfl := checked32_eq_some hfats
    simp only [Option.bind_eq_bind, Option.bind_some, Option.map_some]
    by_cases hsum : rd16 b.mem 14 + bootFats b < 2 ^ 32
    · rw [checked32_of_lt hsum, if_pos hsum, bootInfo, h.bytesPerSector]
    · rw [checked32, if_neg hsum, if_neg hsum]

private theorem exists_error_of_ite {c : Prop} [Decidable c] {e : FatError}
    {r : Option (Except FatError FatInfo)} (h : ¬ c → ∃ e', r = some (.error e')) :
    ∃ e', (if c then some (.error e) else r) = some (.error e') := by
  by_cases hc : c
  · exact ⟨e, if_pos hc⟩
  · rw [if_neg hc]
    exact h hc

/-- A boot sector that fails a check is rejected. -/
theorem parseBoot_of_not_checked {b : Slice} (h : ¬ Checked b) :
    ∃ e, parseBoot b = some (.error e) := by
  rw [parseBoot]
  refine exists_error_of_ite fun hlen => ?_
  refine exists_error_of_ite fun hbytes => ?_
  refine exists_error_of_ite fun hspc => ?_
  refine exists_error_of_ite fun hreserved => ?_
  refine exists_error_of_ite fun hfats => ?_
  refine exists_error_of_ite fun htotal => ?_
  refine exists_error_of_ite fun hspf => ?_
  refine exists_error_of_ite fun hroot => ?_
  simp only [not_or, Nat.not_lt, ne_eq, not_not] at hlen hbytes hspc hroot
  have hpow : isPowerOfTwo (b.mem 13) = true := by simpa using hspc.2
  exact absurd ⟨hlen.1, hlen.2, hbytes, (isPowerOfTwo_iff _).mp hpow, hreserved, hfats, htotal,
    hspf, hroot⟩ h

/-- What the parser has accepted. -/
theorem checked_of_parseBoot {b : Slice} {info : FatInfo} (h : parseBoot b = some (.ok info)) :
    Checked b ∧ rd16 b.mem 14 + bootFats b < 2 ^ 32 ∧ info = bootInfo b := by
  by_cases hc : Checked b
  · rw [parseBoot_of_checked hc] at h
    obtain ⟨fats, hfats, hok⟩ := Option.map_eq_some_iff.mp h
    obtain rfl := checked32_eq_some hfats
    split at hok
    next hsum => exact ⟨hc, hsum, (Except.ok.inj hok).symm⟩
    · cases hok
  · obtain ⟨e, he⟩ := parseBoot_of_not_checked hc
    rw [he] at h
    cases h

/-- A cluster has sectors. -/
theorem parseBoot_spc_pos {b : Slice} {info : FatInfo} (h : parseBoot b = some (.ok info)) :
    0 < info.spc := by
  obtain ⟨hc, -, rfl⟩ := checked_of_parseBoot h
  obtain ⟨k, hk⟩ := hc.sectorsPerCluster
  change 0 < (b.mem 13).toNat
  rw [hk]
  exact Nat.two_pow_pos k

theorem rd16_lt (b : Sector) (off : Nat) : rd16 b off < 2 ^ 16 := readLE_lt b off 2

theorem rd32_lt (b : Sector) (off : Nat) : rd32 b off < 2 ^ 32 := readLE_lt b off 4

theorem bootTotal_lt (b : Sector) : bootTotal b < 2 ^ 32 := by
  have h16 := rd16_lt b 19
  have h32 := rd32_lt b 32
  unfold bootTotal
  split
  · omega
  · exact h32

theorem bootSectorsPerFat_lt (b : Sector) : bootSectorsPerFat b < 2 ^ 32 := by
  have h16 := rd16_lt b 22
  have h32 := rd32_lt b 36
  unfold bootSectorsPerFat
  split
  · omega
  · exact h32

/-- The parser returns, accepts the boot sector if and only if its fields are as they should
be and its data starts at a 32-bit sector number, and then returns the fields. -/
def ParsesExactly (b : Slice) : Prop :=
  ∃ r, parseBoot b = some r ∧
    ((∃ info, r = .ok info) ↔ Checked b ∧ rd16 b.mem 14 + bootFats b < 2 ^ 32) ∧
    ∀ info, r = .ok info →
      info.dataStart.toNat = rd16 b.mem 14 + bootFats b ∧
        info.bytes.toNat = rd16 b.mem 11 ∧ info.sectorsPerCluster = b.mem 13 ∧
        info.reservedSectors.toNat = rd16 b.mem 14 ∧ info.fatCount = b.mem 16 ∧
        info.totalSectors.toNat = bootTotal b.mem ∧
        info.sectorsPerFat.toNat = bootSectorsPerFat b.mem ∧
        info.rootCluster.toNat = rd32 b.mem 44

/-- The fields come back as the numbers they were decoded from. -/
private theorem bootInfo_fields {b : Slice} (hsum : rd16 b.mem 14 + bootFats b < 2 ^ 32) :
    (bootInfo b).dataStart.toNat = rd16 b.mem 14 + bootFats b ∧
      (bootInfo b).bytes.toNat = rd16 b.mem 11 ∧ (bootInfo b).sectorsPerCluster = b.mem 13 ∧
      (bootInfo b).reservedSectors.toNat = rd16 b.mem 14 ∧ (bootInfo b).fatCount = b.mem 16 ∧
      (bootInfo b).totalSectors.toNat = bootTotal b.mem ∧
      (bootInfo b).sectorsPerFat.toNat = bootSectorsPerFat b.mem ∧
      (bootInfo b).rootCluster.toNat = rd32 b.mem 44 := by
  have hbytes : rd16 b.mem 11 < 2 ^ 32 := Nat.lt_trans (rd16_lt b.mem 11) (by decide)
  exact ⟨UInt32.toNat_ofNat_of_lt' hsum, UInt32.toNat_ofNat_of_lt' hbytes, rfl,
    UInt16.toNat_ofNat_of_lt' (rd16_lt b.mem 14), rfl,
    UInt32.toNat_ofNat_of_lt' (bootTotal_lt b.mem),
    UInt32.toNat_ofNat_of_lt' (bootSectorsPerFat_lt b.mem),
    UInt32.toNat_ofNat_of_lt' (rd32_lt b.mem 44)⟩

/-- **Where the parser is total and exact.** For every slice: the parser returns, accepts
exactly the boot sectors whose fields are as they should be and whose data start fits, and
returns their fields, if and only if the slice fails a check or the product of the FAT count
and the FAT size fits 32 bits. -/
theorem parsesExactly_iff (b : Slice) :
    ParsesExactly b ↔ (Checked b → (b.mem 16).toNat * bootSectorsPerFat b.mem < 2 ^ 32) := by
  constructor
  · rintro ⟨r, hr, -, -⟩ hc
    rw [parseBoot_of_checked hc] at hr
    obtain ⟨fats, hfats, -⟩ := Option.map_eq_some_iff.mp hr
    by_contra hbig
    rw [checked32, bootFats, if_neg hbig] at hfats
    cases hfats
  · intro h
    by_cases hc : Checked b
    · have hfats : checked32 (bootFats b) = some (bootFats b) := checked32_of_lt (h hc)
      have hparse := parseBoot_of_checked hc
      rw [hfats, Option.map_some] at hparse
      refine ⟨_, hparse, ?_⟩
      by_cases hsum : rd16 b.mem 14 + bootFats b < 2 ^ 32
      · rw [if_pos hsum]
        refine ⟨⟨fun _ => ⟨hc, hsum⟩, fun _ => ⟨_, rfl⟩⟩, fun info hinfo => ?_⟩
        obtain rfl := Except.ok.inj hinfo
        exact bootInfo_fields hsum
      · rw [if_neg hsum]
        refine ⟨⟨?_, fun hok => absurd hok.2 hsum⟩, ?_⟩
        · rintro ⟨info, hinfo⟩
          cases hinfo
        · intro info hinfo
          cases hinfo
    · obtain ⟨e, he⟩ := parseBoot_of_not_checked hc
      refine ⟨_, he, ⟨?_, fun hok => absurd hok.1 hc⟩, ?_⟩
      · rintro ⟨info, hinfo⟩
        cases hinfo
      · intro info hinfo
        cases hinfo

/-- A boot sector with two FATs of 2^31 sectors each. -/
def hugeFatBoot : Slice :=
  sectorSlice fun i =>
    match i with
    | 12 => 0x02
    | 13 => 8
    | 14 => 2
    | 16 => 2
    | 34 => 0x10
    | 39 => 0x80
    | 44 => 2
    | 510 => 0x55
    | 511 => 0xAA
    | _ => 0

/-- The product of its FAT count and FAT size overflows. -/
theorem fat_product_overflows :
    hugeFatBoot.len = 512 ∧ parseBoot hugeFatBoot = none ∧ ¬ ParsesExactly hugeFatBoot := by
  have hchecked : Checked hugeFatBoot :=
    ⟨by decide, by decide, by decide, ⟨3, rfl⟩, by decide, by decide, by decide, by decide,
      by decide⟩
  have hnone : parseBoot hugeFatBoot = none := by
    rw [parseBoot_of_checked hchecked]
    decide
  refine ⟨rfl, hnone, ?_⟩
  rintro ⟨r, hr, -⟩
  rw [hnone] at hr
  cases hr

end LionOS.Fs
