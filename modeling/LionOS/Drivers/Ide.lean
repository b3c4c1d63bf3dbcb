import LionOS.Drivers.AtaChannel
import LionOS.Lib.Bits

/-!
# The ATA driver

`probe_all` asks both channels who is there, and `read_sector` moves one sector through the data
port. Both poll the status register a bounded number of times. Seen from the file system a
drive that answers in time is a block device.
-/

namespace LionOS.Drivers

open Lib Fs

/-- A detected drive. -/
structure AtaDisk where
  base : Nat
  lba28Capacity : Nat
  deriving DecidableEq, Repr

/-- IDENTIFY words 60 and 61 as one number. -/
def lba28Capacity (lo hi : Nat) : Nat := hi <<< 16 ||| lo

/-- The first drive, LBA addressing, and bits 24 to 27 of the address. -/
def driveReg (lba : Nat) : UInt8 := (0xE0 : UInt8) ||| (UInt8.ofNat (lba >>> 24) &&& 0x0F)

/-- A write to the port 0x80, whatever the byte. -/
def ioWait (s : Channels) : Channels := outb 0x80 0 s

/-- The loop of `wait_bs` with `n` turns to go. -/
def waitLoop (base : Nat) : Nat → Channels → Bool × Channels
  | 0, s => (false, s)
  | n + 1, s =>
    let (st, s) := inb (base + 7) s
    if st &&& 0x80 = 0 then (true, s) else waitLoop base n (ioWait s)

/-- The turns of the loop. -/
def waitTurns : Nat := 20000

/-- Wait for the drive to clear BSY; false on timeout. -/
def waitBs (base : Nat) (s : Channels) : Bool × Channels := waitLoop base waitTurns s

/-- The loop over the chunks of the buffer, from chunk `i` on. -/
def readChunks (base : Nat) : (left i : Nat) → Sector → Channels → Sector × Channels
  | 0, _, buf, s => (buf, s)
  | left + 1, i, buf, s =>
    let (w, s) := inw base s
    readChunks base left (i + 1)
      (Function.update (Function.update buf (2 * i) w.toUInt8) (2 * i + 1) (w >>> 8).toUInt8) s

/-- `identify` behind its command: wait, look at ERR and DRQ, move the words. -/
def identifyReply (base : Nat) (s : Channels) : Option Sector × Channels :=
  match waitBs base s with
  | (false, s) => (none, s)
  | (true, s) =>
    let (st, s) := inb (base + 7) s
    if st &&& 0x01 ≠ 0 then (none, s)
    else if st &&& 0x08 = 0 then (none, s)
    else
      let (out, s) := readChunks base 256 0 (fun _ => 0) s
      (some out, s)

/-- IDENTIFY of the first drive; nothing if no drive answers. -/
def identify (base : Nat) (s : Channels) : Option Sector × Channels :=
  let s := outb (base + 6) 0xA0 s
  match waitBs base s with
  | (false, s) => (none, s)
  | (true, s) =>
    let s := outb (base + 2) 0 s
    let s := outb (base + 3) 0 s
    let s := outb (base + 4) 0 s
    let s := outb (base + 5) 0 s
    let s := outb (base + 7) 0xEC s
    identifyReply base s

def fromIdentify (base : Nat) (id : Sector) : AtaDisk where
  base := base
  lba28Capacity := lba28Capacity (rd16 id 120) (rd16 id 122)

/-- Every drive on the two channels. -/
def probeAll (s : Channels) : List AtaDisk × Channels :=
  let (id, s) := identify Channel.primary.base s
  let (id', s) := identify Channel.secondary.base s
  ((id.map (fromIdentify Channel.primary.base)).toList ++
    (id'.map (fromIdentify Channel.secondary.base)).toList, s)

/-- `read_sector` behind its command: wait, look at ERR, move the words, look again. -/
def readReply (base : Nat) (buf : Sector) (s : Channels) : Bool × Sector × Channels :=
  match waitBs base s with
  | (false, s) => (false, buf, s)
  | (true, s) =>
    let (st, s) := inb (base + 7) s
    if st &&& 0x01 ≠ 0 then (false, buf, s)
    else
      let (buf, s) := readChunks base 256 0 buf s
      let (st, s) := inb (base + 7) s
      if st &&& 0x01 ≠ 0 then (false, buf, s) else (true, buf, s)

/-- Read one sector into the buffer. -/
def readSector (disk : AtaDisk) (lba : Nat) (buf : Sector) (s : Channels) :
    Bool × Sector × Channels :=
  if disk.lba28Capacity ≤ lba then (false, buf, s)
  else
    match waitBs disk.base s with
    | (false, s) => (false, buf, s)
    | (true, s) =>
      let s := outb (disk.base + 6) (driveReg lba) s
      let s := outb (disk.base + 2) 1 s
      let s := outb (disk.base + 3) (UInt8.ofNat (lba &&& 0xFF)) s
      let s := outb (disk.base + 4) (UInt8.ofNat ((lba >>> 8) &&& 0xFF)) s
      let s := outb (disk.base + 5) (UInt8.ofNat ((lba >>> 16) &&& 0xFF)) s
      let s := outb (disk.base + 7) 0x20 s
      readReply disk.base buf s

variable {c : Channel} {d : Drive} {s : Channels} {lba n : Nat} {buf : Sector}

theorem ioWait_eq (s : Channels) : ioWait s = s := rfl

/-- The loop waits as long as the drive is busy, if its turns last. -/
theorem waitLoop_drive (hd : s c = some d) (n : Nat) :
    waitLoop c.base n s =
      (decide (d.busy < n), Function.update s c (some { d with busy := d.busy - n })) := by
  induction n generalizing s d with
  | zero =>
    have hsame : Function.update s c (some d) = s := by rw [← hd, Function.update_eq_self]
    simp [waitLoop, hsame]
  | succ n ih =>
    rw [waitLoop, inb_base hd (by omega)]
    simp only [Drive.read, ioWait_eq]
    by_cases hbusy : d.busy = 0
    · simp [(Drive.status_ready hbusy).1, hbusy]
    · have hrest := ih (s := Function.update s c (some { d with busy := d.busy - 1 }))
        (Function.update_self ..)
      rw [if_neg (Drive.status_busy hbusy), hrest, Function.update_idem]
      have hlt : d.busy - 1 < n ↔ d.busy < n + 1 := by omega
      have hsub : d.busy - 1 - n = d.busy - (n + 1) := by omega
      simp only [hlt, hsub]

/-- Where no drive answers, the status never changes. -/
theorem waitLoop_none (hs : s c = none) (n : Nat) : waitLoop c.base n s = (false, s) := by
  induction n with
  | zero => rfl
  | succ n ih =>
    rw [waitLoop, inb_none hs (by omega)]
    simp only [ioWait_eq, ih]
    rfl

/-- The two bytes of a word of a sector. -/
private theorem toUInt8_rd16 (b : Sector) (off : Nat) :
    (UInt16.ofNat (rd16 b off)).toUInt8 = b off ∧
      (UInt16.ofNat (rd16 b off) >>> 8).toUInt8 = b (off + 1) := by
  have h0 := (b off).toNat_lt
  have h1 := (b (off + 1)).toNat_lt
  have hword : rd16 b off = (b off).toNat + 256 * (b (off + 1)).toNat := by
    simp [rd16, readLE]
  rw [hword]
  constructor
  · apply UInt8.toNat_inj.mp
    rw [UInt16.toNat_toUInt8, UInt16.toNat_ofNat_of_lt' (by simp [UInt16.size]; omega)]
    omega
  · apply UInt8.toNat_inj.mp
    rw [UInt16.toNat_toUInt8, UInt16.toNat_shiftRight,
      UInt16.toNat_ofNat_of_lt' (by simp [UInt16.size]; omega)]
    simp only [UInt16.toNat_ofNat, Nat.shiftRight_eq_div_pow, Nat.reduceMod, Nat.reducePow]
    omega

/-- The loop copies the words of a transfer into the buffer and leaves none. -/
theorem readChunks_drive {b : Sector} (buf : Sector) (hd : s c = some d) (hbusy : d.busy = 0)
    {left i : Nat} (hlen : i + left = 256)
    (hdata : d.data = (List.range' i left).map fun k => UInt16.ofNat (rd16 b (2 * k)))
    (hbuf : ∀ k < 2 * i, buf k = b k) :
    (∀ k < 512, (readChunks c.base left i buf s).1 k = b k) ∧
      (readChunks c.base left i buf s).2 = Function.update s c (some { d with data := [] }) := by
  induction left generalizing i s d buf with
  | zero =>
    have hsame : { d with data := [] } = d := by
      rw [List.range'_zero, List.map_nil] at hdata
      rw [← hdata]
    rw [readChunks, hsame, ← hd, Function.update_eq_self]
    exact ⟨fun k hk => hbuf k (by omega), rfl⟩
  | succ left ih =>
    have hword : d.readWord = (UInt16.ofNat (rd16 b (2 * i)), { d with
        data := (List.range' (i + 1) left).map fun k => UInt16.ofNat (rd16 b (2 * k)) }) := by
      rw [Drive.readWord, if_neg (not_not.mpr hbusy), hdata, List.range'_succ, List.map_cons]
    obtain ⟨hlow, hhigh⟩ := toUInt8_rd16 b (2 * i)
    rw [readChunks, inw_base hd, hword]
    simp only [hlow, hhigh]
    have hrest := ih (s := Function.update s c (some (d.readWord.2))) (d := d.readWord.2)
      (i := i + 1)
      (Function.update (Function.update buf (2 * i) (b (2 * i))) (2 * i + 1) (b (2 * i + 1)))
      (Function.update_self ..) (by rw [hword]; exact hbusy) (by omega)
      (by rw [hword]) fun k hk => ?_
    · rw [hword, Function.update_idem] at hrest
      exact hrest
    · rw [Function.update_apply, Function.update_apply]
      split
      next heq => rw [heq]
      next hne =>
        split
        next heq => rw [heq]
        next hne' => exact hbuf k (by omega)

/-- The address in the registers is the low 28 bits of the sector number, and they select the
first drive and LBA addressing. -/
theorem driveReg_eq (lba : Nat) : (driveReg lba).toNat = 224 + lba / 2 ^ 24 % 16 := by
  have hand : lba / 2 ^ 24 % 2 ^ 8 &&& 2 ^ 4 - 1 = lba / 2 ^ 24 % 2 ^ 8 % 2 ^ 4 :=
    Nat.and_two_pow_sub_one_eq_mod _ 4
  have hor := Nat.two_pow_add_eq_or_of_lt (i := 4) (b := lba / 2 ^ 24 % 16) (by omega) 14
  have hmod : lba / 2 ^ 24 % 2 ^ 8 % 2 ^ 4 = lba / 2 ^ 24 % 16 := by omega
  rw [driveReg, UInt8.toNat_or, UInt8.toNat_and, UInt8.toNat_ofNat', Nat.shiftRight_eq_div_pow]
  calc (0xE0 : UInt8).toNat ||| lba / 2 ^ 24 % 2 ^ 8 &&& (0x0F : UInt8).toNat
      = 2 ^ 4 * 14 ||| lba / 2 ^ 24 % 2 ^ 8 % 2 ^ 4 := by rw [← hand]; rfl
    _ = 224 + lba / 2 ^ 24 % 16 := by rw [hmod, ← hor]

theorem toNat_lbaByte (lba k : Nat) :
    (UInt8.ofNat (lba >>> k &&& 0xFF)).toNat = lba / 2 ^ k % 256 := by
  have hand : lba / 2 ^ k &&& 2 ^ 8 - 1 = lba / 2 ^ k % 2 ^ 8 := Nat.and_two_pow_sub_one_eq_mod _ 8
  rw [UInt8.toNat_ofNat', Nat.shiftRight_eq_div_pow, show (0xFF : Nat) = 2 ^ 8 - 1 from rfl, hand]
  omega

/-- The registers hold what `read_sector` writes to them. -/
def Drive.aimed (d : Drive) (lba : Nat) : Drive :=
  { d with
    busy := 0
    driveHead := driveReg lba
    secCnt := 1
    lbaLo := UInt8.ofNat (lba &&& 0xFF)
    lbaMid := UInt8.ofNat ((lba >>> 8) &&& 0xFF)
    lbaHi := UInt8.ofNat ((lba >>> 16) &&& 0xFF) }

theorem Drive.address_aimed (d : Drive) (lba : Nat) : (d.aimed lba).address = lba % 2 ^ 28 := by
  have hlow : (UInt8.ofNat (lba &&& 0xFF)).toNat = lba % 256 := by
    simpa using toNat_lbaByte lba 0
  simp only [Drive.address, Drive.aimed, hlow, toNat_lbaByte, driveReg_eq]
  omega

theorem Drive.asked_aimed (d : Drive) (lba : Nat) : (d.aimed lba).asked = [lba % 2 ^ 28] := by
  have hcount : (d.aimed lba).secCnt = 1 := rfl
  rw [Drive.asked, Drive.address_aimed, hcount]
  rfl

/-- READ SECTOR(S) with these registers. -/
theorem Drive.command_aimed (d : Drive) (lba : Nat) : (d.aimed lba).command 0x20 =
    if d.readable (lba % 2 ^ 28) then
      (d.aimed lba).outcome false (Drive.sectorWords (d.medium.sectors (lba % 2 ^ 28)))
    else (d.aimed lba).outcome true [] := by
  have hselected : (d.aimed lba).selected = true := by
    rw [Drive.selected, Drive.aimed, driveReg_eq, beq_iff_eq]
    omega
  have hmode : (d.aimed lba).lbaMode = true := by
    rw [Drive.lbaMode, Drive.aimed, driveReg_eq, beq_iff_eq]
    omega
  rw [Drive.command, hselected, hmode, Drive.asked_aimed]
  simp [Drive.readable, Drive.aimed]

/-! ## Reading a sector -/

/-- What reading the sector finds: the drive answers both times, and can read the sector the
registers name. -/
def Drive.serves (d : Drive) (lba : Nat) : Bool :=
  d.busy < waitTurns && d.medium.delay d.issued < waitTurns && d.readable (lba % 2 ^ 28)

theorem Drive.serves_iff : d.serves lba = true ↔
    d.busy < waitTurns ∧ d.medium.delay d.issued < waitTurns ∧
      d.readable (lba % 2 ^ 28) = true := by
  simp only [Drive.serves, Bool.and_eq_true, decide_eq_true_eq, and_assoc]

theorem outb_update {reg : Nat} (h : reg < 8) (v : UInt8) :
    outb (c.base + reg) v (Function.update s c (some d)) =
      Function.update s c (some (d.write reg v)) := by
  rw [outb_base (Function.update_self ..) h, Function.update_idem]

/-- The writes that lead to the command. -/
theorem outb_aimed (hbusy : d.busy = 0) (lba : Nat) :
    outb (c.base + 7) 0x20 (outb (c.base + 5) (UInt8.ofNat ((lba >>> 16) &&& 0xFF))
      (outb (c.base + 4) (UInt8.ofNat ((lba >>> 8) &&& 0xFF))
        (outb (c.base + 3) (UInt8.ofNat (lba &&& 0xFF))
          (outb (c.base + 2) 1 (outb (c.base + 6) (driveReg lba)
            (Function.update s c (some d))))))) =
      Function.update s c (some ((d.aimed lba).command 0x20)) := by
  have haimed : ((((d.write 6 (driveReg lba)).write 2 1).write 3
      (UInt8.ofNat (lba &&& 0xFF))).write 4 (UInt8.ofNat ((lba >>> 8) &&& 0xFF))).write 5
        (UInt8.ofNat ((lba >>> 16) &&& 0xFF)) = d.aimed lba := by
    simp [Drive.write, Drive.aimed, hbusy]
  rw [outb_update (by omega), outb_update (by omega), outb_update (by omega),
    outb_update (by omega), outb_update (by omega), outb_update (by omega), haimed]
  rfl

/-- The reply to a command that failed, or was too slow. -/
theorem readReply_fails {d : Drive} (hd : s c = some d)
    (hfail : ¬ d.busy < waitTurns ∨ d.err = true) (buf : Sector) : readReply c.base buf s =
      (false, buf, Function.update s c (some { d with busy := d.busy - waitTurns })) := by
  rw [readReply, waitBs, waitLoop_drive hd]
  by_cases hbusy : d.busy < waitTurns
  · have herr : d.err = true := hfail.resolve_left (not_not.mpr hbusy)
    have hzero : d.busy - waitTurns = 0 := by omega
    rw [hzero, decide_eq_true hbusy]
    simp only [inb_base (Function.update_self c (some { d with busy := 0 }) s)
      (show 7 < 8 by omega), Function.update_idem, Drive.read]
    rw [if_pos]
    rw [Ne, (Drive.status_ready rfl).2.2]
    simp [herr]
  · rw [decide_eq_false hbusy]

/-- The reply to a command that has a sector's words to move. -/
theorem readReply_moves {d : Drive} {b : Sector} (hd : s c = some d) (hbusy : d.busy < waitTurns)
    (herr : d.err = false) (hdata : d.data = Drive.sectorWords b) (buf : Sector) :
    ∃ buf', (∀ k < 512, buf' k = b k) ∧ readReply c.base buf s =
      (true, buf', Function.update s c (some { d with busy := 0, data := [] })) := by
  have hzero : d.busy - waitTurns = 0 := by omega
  have hwords : d.data = (List.range' 0 256).map fun k => UInt16.ofNat (rd16 b (2 * k)) := by
    rw [hdata, Drive.sectorWords, List.range_eq_range']
  obtain ⟨hbuf, hstate⟩ := readChunks_drive (s := Function.update s c (some { d with busy := 0 }))
    buf (Function.update_self ..) rfl (Nat.zero_add 256) hwords fun k hk => by omega
  refine ⟨_, hbuf, ?_⟩
  have hok : ∀ data, ¬ ({ d with busy := 0, data := data } : Drive).status &&& 0x01 ≠ 0 := by
    intro data
    rw [not_not]
    exact (Drive.status_ready rfl).2.2.mpr herr
  rw [readReply, waitBs, waitLoop_drive hd, hzero, decide_eq_true hbusy]
  simp only [inb_base (Function.update_self c (some { d with busy := 0 }) s) (show 7 < 8 by omega),
    Function.update_idem, Drive.read]
  rw [if_neg (hok d.data)]
  simp only [Nat.zero_sub, hstate, Function.update_idem]
  simp only [inb_base (Function.update_self c (some { d with busy := 0, data := [] }) s)
    (show 7 < 8 by omega), Function.update_idem, Drive.read]
  rw [if_neg (hok [])]

/-- **What `read_sector` does on a drive that ends a command with its data or with ERR.** It
returns true exactly when the sector number is below the recorded capacity, the drive stops
being busy in time before and behind the command, and it can read the sector that the low 28
bits name. Then the buffer holds that sector; else it is as it was. The medium is never
changed, and a drive that answers in time is ready for the next call. -/
theorem readSector_drive (hd : s c = some d) (cap lba : Nat) (buf : Sector) :
    ∃ ok buf' d', readSector ⟨c.base, cap⟩ lba buf s =
        (ok, buf', Function.update s c (some d')) ∧
      (ok = true ↔ lba < cap ∧ d.serves lba = true) ∧
      (ok = true → ∀ k < 512, buf' k = d.medium.sectors (lba % 2 ^ 28) k) ∧
      (ok = false → buf' = buf) ∧ d'.medium = d.medium ∧
      (d.busy = 0 → d.medium.delay d.issued < waitTurns → d'.busy = 0) := by
  have hself : Function.update s c (some d) = s := by rw [← hd, Function.update_eq_self]
  rw [readSector]
  by_cases hcap : cap ≤ lba
  · rw [if_pos hcap]
    exact ⟨false, buf, d, by rw [hself], iff_of_false Bool.noConfusion fun h => by omega,
      fun h => Bool.noConfusion h, fun _ => rfl, rfl, fun h _ => h⟩
  rw [if_neg hcap, waitBs, waitLoop_drive hd]
  by_cases hbusy : d.busy < waitTurns
  swap
  · rw [decide_eq_false hbusy]
    exact ⟨false, buf, _, rfl, iff_of_false Bool.noConfusion fun h =>
      hbusy (Drive.serves_iff.mp h.2).1,
      fun h => Bool.noConfusion h, fun _ => rfl, rfl, fun h _ => by simp [h]⟩
  have hzero : d.busy - waitTurns = 0 := by omega
  rw [hzero, decide_eq_true hbusy]
  simp only [outb_aimed (d := { d with busy := 0 }) rfl]
  have haimed : ({ d with busy := 0 } : Drive).aimed lba = d.aimed lba := rfl
  rw [haimed, Drive.command_aimed]
  by_cases hread : d.readable (lba % 2 ^ 28) = true
  swap
  · -- The drive reports an error.
    have hslow : d.medium.delay d.issued < waitTurns → d.medium.delay d.issued - waitTurns = 0 :=
      Nat.sub_eq_zero_of_le ∘ Nat.le_of_lt
    rw [if_neg hread, readReply_fails (Function.update_self ..) (Or.inr rfl), Function.update_idem]
    exact ⟨false, buf, _, rfl, iff_of_false Bool.noConfusion fun h =>
      hread (Drive.serves_iff.mp h.2).2.2,
      fun h => Bool.noConfusion h, fun _ => rfl, rfl, fun _ h => hslow h⟩
  rw [if_pos hread]
  by_cases hdelay : d.medium.delay d.issued < waitTurns
  · obtain ⟨buf', hbuf, hreply⟩ := readReply_moves (c := c)
      (s := Function.update s c (some ((d.aimed lba).outcome false
        (Drive.sectorWords (d.medium.sectors (lba % 2 ^ 28))))))
      (Function.update_self ..) hdelay rfl rfl buf
    rw [Function.update_idem] at hreply
    exact ⟨true, buf', _, hreply,
      iff_of_true rfl ⟨by omega, Drive.serves_iff.mpr ⟨hbusy, hdelay, hread⟩⟩, fun _ => hbuf,
      fun h => Bool.noConfusion h, rfl, fun _ _ => rfl⟩
  · rw [readReply_fails (Function.update_self ..) (Or.inl hdelay), Function.update_idem]
    exact ⟨false, buf, _, rfl, iff_of_false Bool.noConfusion fun h =>
      hdelay (Drive.serves_iff.mp h.2).2.1,
      fun h => Bool.noConfusion h, fun _ => rfl, rfl, fun _ h => absurd h hdelay⟩

/-- Four empty sectors, the third of them bad, and no delay. -/
def smallMedium : Medium where
  sectors _ _ := 0
  identity i := if i = 60 then 4 else 0
  bad lba := lba == 2
  delay _ := 0

def smallDrive : Drive where
  medium := smallMedium
  secCnt := 0
  lbaLo := 0
  lbaMid := 0
  lbaHi := 0
  driveHead := 0
  issued := 0
  busy := 0
  err := false
  data := []

/-- Sector 1 replaces what was in the buffer. -/
theorem readSector_small :
    ∃ ok buf' d',
      readSector ⟨Channel.primary.base, 4⟩ 1 (fun _ => 0xAA) (fun _ => some smallDrive) =
        (ok, buf', Function.update (fun _ => some smallDrive) .primary (some d')) ∧
      (ok = true ↔ 1 < 4 ∧ smallDrive.serves 1 = true) ∧
      (ok = true → ∀ k < 512, buf' k = smallDrive.medium.sectors (1 % 2 ^ 28) k) ∧
      (ok = false → buf' = fun _ => 0xAA) ∧ d'.medium = smallDrive.medium ∧
      (smallDrive.busy = 0 → smallDrive.medium.delay smallDrive.issued < waitTurns → d'.busy = 0) :=
  readSector_drive (c := .primary) (s := fun _ => some smallDrive) rfl 4 1 fun _ => 0xAA

/-! ## Identifying the drives -/

/-- The bytes of the IDENTIFY payload. -/
def Medium.payload (m : Medium) : Sector := fun k =>
  if k % 2 = 0 then (m.identity (k / 2)).toUInt8 else (m.identity (k / 2) >>> 8).toUInt8

theorem rd16_payload (m : Medium) (i : Nat) : rd16 m.payload (2 * i) = (m.identity i).toNat := by
  have hlt := (m.identity i).toNat_lt
  have heven : (2 * i) % 2 = 0 := by omega
  have hodd : ¬ (2 * i + 1) % 2 = 0 := by omega
  have hdiv : 2 * i / 2 = i := by omega
  have hdiv' : (2 * i + 1) / 2 = i := by omega
  simp only [rd16, readLE, Medium.payload, heven, hodd, hdiv, hdiv', if_true, if_false,
    UInt16.toNat_toUInt8, UInt16.toNat_shiftRight, UInt16.toNat_ofNat,
    Nat.shiftRight_eq_div_pow, Nat.reduceMod, Nat.reducePow]
  omega

/-- The registers hold what `identify` writes to them. -/
def Drive.cleared (d : Drive) : Drive :=
  { d with driveHead := 0xA0, secCnt := 0, lbaLo := 0, lbaMid := 0, lbaHi := 0 }

theorem Drive.command_cleared (d : Drive) : d.cleared.command 0xEC =
    d.cleared.outcome false ((List.range 256).map d.medium.identity) := by
  have hselected : d.cleared.selected = true := by
    change ((0xA0 : UInt8).toNat / 16 % 2 == 0) = true
    decide
  rw [Drive.command, hselected, if_neg (by decide), if_neg (by decide), if_pos rfl]
  rfl

theorem outb_cleared (hbusy : d.busy = 0) :
    outb (c.base + 7) 0xEC (outb (c.base + 5) 0 (outb (c.base + 4) 0 (outb (c.base + 3) 0
      (outb (c.base + 2) 0 (Function.update s c (some (d.write 6 0xA0))))))) =
      Function.update s c (some (d.cleared.command 0xEC)) := by
  have hcleared : ((((d.write 6 0xA0).write 2 0).write 3 0).write 4 0).write 5 0 = d.cleared := by
    simp [Drive.write, Drive.cleared, hbusy]
  have hcommand : d.cleared.write 7 0xEC = d.cleared.command 0xEC := by
    exact if_neg (not_not.mpr hbusy)
  rw [outb_update (by omega), outb_update (by omega), outb_update (by omega),
    outb_update (by omega), outb_update (by omega), hcleared, hcommand]

/-- The words of the payload are what its bytes say. -/
theorem Medium.identity_eq (m : Medium) : (List.range 256).map m.identity =
    (List.range' 0 256).map fun k => UInt16.ofNat (rd16 m.payload (2 * k)) := by
  rw [List.range_eq_range']
  exact List.map_congr_left fun k _ => by rw [rd16_payload, UInt16.ofNat_toNat]

/-- The reply of a drive that has its payload to move. -/
theorem identifyReply_drive (hd : s c = some d) (hbusy : d.busy < waitTurns) (herr : d.err = false)
    (hdata : d.data = (List.range 256).map d.medium.identity) :
    ∃ id, identifyReply c.base s =
        (some id, Function.update s c (some { d with busy := 0, data := [] })) ∧
      ∀ k < 512, id k = d.medium.payload k := by
  have hzero : d.busy - waitTurns = 0 := by omega
  obtain ⟨hbuf, hstate⟩ := readChunks_drive (s := Function.update s c (some { d with busy := 0 }))
    (fun _ => 0) (Function.update_self ..) rfl (Nat.zero_add 256)
    (hdata.trans d.medium.identity_eq) fun k hk => by omega
  refine ⟨_, ?_, hbuf⟩
  obtain ⟨-, hdrq, herror⟩ := Drive.status_ready (d := { d with busy := 0 }) rfl
  rw [identifyReply, waitBs, waitLoop_drive hd, hzero, decide_eq_true hbusy]
  simp only [inb_base (Function.update_self c (some { d with busy := 0 }) s) (show 7 < 8 by omega),
    Function.update_idem, Drive.read]
  rw [if_neg (not_not.mpr (herror.mpr herr)), if_neg]
  · simp only [Nat.zero_sub, hstate, Function.update_idem]
  · rw [hdrq, hdata]
    simp

/-- An idle drive that answers in time tells its payload. -/
theorem identify_drive (hd : s c = some d) (hbusy : d.busy = 0)
    (hdelay : d.medium.delay d.issued < waitTurns) :
    ∃ id d', identify c.base s = (some id, Function.update s c (some d')) ∧
      (∀ k < 512, id k = d.medium.payload k) ∧ d'.medium = d.medium ∧ d'.busy = 0 := by
  have hselect : d.write 6 0xA0 = { d with busy := 0, driveHead := 0xA0 } := by
    simp [Drive.write, hbusy]
  have hpos : 0 < waitTurns := Nat.succ_pos _
  obtain ⟨id, hreply, hid⟩ := identifyReply_drive (c := c)
    (s := Function.update s c (some (d.cleared.command 0xEC))) (Function.update_self ..)
    (by rw [d.command_cleared]; exact hdelay) (by rw [d.command_cleared]; rfl)
    (by rw [d.command_cleared]; rfl)
  rw [Function.update_idem] at hreply
  have hmedium : (d.cleared.command 0xEC).medium = d.medium := by
    rw [d.command_cleared]
    rfl
  refine ⟨id, { d.cleared.command 0xEC with busy := 0, data := [] }, ?_, ?_, hmedium, rfl⟩
  · have hcleared := outb_cleared (c := c) (s := s) hbusy
    rw [hselect] at hcleared
    rw [identify, outb_base hd (by omega), waitBs, waitLoop_drive (Function.update_self ..),
      hselect, decide_eq_true hpos, Function.update_idem]
    simp only [Nat.zero_sub, hcleared, hreply]
  · rw [← hmedium]
    exact hid

/-- Nobody answers on an empty channel. -/
theorem identify_none (hs : s c = none) : identify c.base s = (none, s) := by
  rw [identify, outb_none hs (by omega), waitBs, waitLoop_none hs]

/-! ## The drives as block devices -/

/-- The drive answers every command in time, and its sectors have 28-bit numbers. -/
structure Medium.Prompt (m : Medium) : Prop where
  delay_lt : ∀ n, m.delay n < waitTurns
  capacity_le : m.capacity ≤ 2 ^ 28

/-- What the file system sees of a drive. -/
def Medium.device (m : Medium) : BlockDevice := fun lba =>
  if lba < m.capacity && !m.bad lba then some (m.sectors lba) else none

/-- The disk that `probe_all` makes of a drive. -/
def Medium.disk (m : Medium) (c : Channel) : AtaDisk := ⟨c.base, m.capacity⟩

/-- The media on the channels, in idle drives. -/
def Attached (media : Channel → Option Medium) (s : Channels) : Prop :=
  ∀ c, (s c).map Drive.medium = media c ∧ ∀ d, s c = some d → d.busy = 0

variable {media : Channel → Option Medium} {m : Medium}

theorem Attached.update (h : Attached media s) {d d' : Drive} (hd : s c = some d)
    (hmedium : d'.medium = d.medium) (hbusy : d'.busy = 0) :
    Attached media (Function.update s c (some d')) := by
  intro c'
  by_cases hc : c' = c
  · subst hc
    rw [Function.update_self]
    refine ⟨?_, fun d'' hd'' => by rwa [← Option.some.inj hd'']⟩
    rw [← (h c').1, hd, Option.map_some, Option.map_some, hmedium]
  · rw [Function.update_of_ne hc]
    exact h c'

/-- The drive with a medium. -/
theorem Attached.drive (h : Attached media s) (hm : media c = some m) :
    ∃ d, s c = some d ∧ d.medium = m ∧ d.busy = 0 := by
  obtain ⟨hmedium, hidle⟩ := h c
  rw [hm] at hmedium
  obtain ⟨d, hd, hdm⟩ := Option.map_eq_some_iff.mp hmedium
  exact ⟨d, hd, hdm, hidle d hd⟩

/-- The capacity is read from bytes 120 to 123 of the payload. -/
private theorem fromIdentify_eq {id : Sector} (h : ∀ k < 512, id k = m.payload k) (base : Nat) :
    fromIdentify base id = ⟨base, m.capacity⟩ := by
  have hlow : rd16 id 120 = (m.identity 60).toNat := by
    rw [← rd16_payload]
    exact readLE_congr fun x _ hx => h x (by omega)
  have hhigh : rd16 id 122 = (m.identity 61).toNat := by
    rw [← rd16_payload]
    exact readLE_congr fun x _ hx => h x (by omega)
  have hlt : (m.identity 60).toNat < 2 ^ 16 := (m.identity 60).toNat_lt
  rw [fromIdentify, hlow, hhigh, lba28Capacity, ← Nat.shiftLeft_add_eq_or_of_lt hlt,
    Nat.shiftLeft_eq, Medium.capacity, Nat.mul_comm, Nat.add_comm]

/-- Identifying the drive of a channel finds it if there is one. -/
theorem Attached.identify (h : Attached media s) (hprompt : ∀ c m, media c = some m → m.Prompt)
    (c : Channel) :
    (identify c.base s).1.map (fromIdentify c.base) = (media c).map (fun m => m.disk c) ∧
      Attached media (identify c.base s).2 := by
  cases hm : media c with
  | none =>
    have hs : s c = none := by
      have := (h c).1
      rwa [hm, Option.map_eq_none_iff] at this
    rw [identify_none hs]
    exact ⟨rfl, h⟩
  | some m =>
    obtain ⟨d, hd, rfl, hbusy⟩ := h.drive hm
    obtain ⟨id, d', hid, hpayload, hmedium, hidle⟩ :=
      identify_drive hd hbusy ((hprompt c _ hm).delay_lt _)
    rw [hid]
    refine ⟨?_, h.update hd hmedium hidle⟩
    rw [Option.map_some, fromIdentify_eq hpayload]
    rfl

/-- The disks on the channels, the primary one first. -/
def found (media : Channel → Option Medium) : List AtaDisk :=
  [Channel.primary, Channel.secondary].filterMap fun c => (media c).map fun m => m.disk c

theorem Attached.probeAll (h : Attached media s) (hprompt : ∀ c m, media c = some m → m.Prompt) :
    (probeAll s).1 = found media ∧ Attached media (probeAll s).2 := by
  obtain ⟨hfirst, h₁⟩ := h.identify hprompt .primary
  obtain ⟨hsecond, h₂⟩ := h₁.identify hprompt .secondary
  refine ⟨?_, h₂⟩
  simp only [Drivers.probeAll, hfirst, hsecond, found, List.filterMap_cons, List.filterMap_nil]
  cases media .primary with
  | none => cases media .secondary <;> rfl
  | some m => cases media .secondary <;> rfl

/-- One request after another: a disk, a sector number and a buffer. -/
def readAll : List (AtaDisk × Nat × Sector) → Channels → List (Bool × Sector)
  | [], _ => []
  | (disk, lba, buf) :: rest, s =>
    let (ok, buf', s) := readSector disk lba buf s
    (ok, buf') :: readAll rest s

/-- The reply of a block device: the sector in the buffer, or the buffer as it was. -/
def Answers (dev : BlockDevice) (lba : Nat) (buf : Sector) (reply : Bool × Sector) : Prop :=
  match dev lba with
  | some b => reply.1 = true ∧ ∀ k < 512, reply.2 k = b k
  | none => reply = (false, buf)

/-- A request to a drive is answered by its medium. -/
theorem Attached.readSector (h : Attached media s) (hm : media c = some m) (hprompt : m.Prompt)
    (lba : Nat) (buf : Sector) :
    ∃ ok buf' s', readSector (m.disk c) lba buf s = (ok, buf', s') ∧
      Answers m.device lba buf (ok, buf') ∧ Attached media s' := by
  obtain ⟨d, hd, rfl, hbusy⟩ := h.drive hm
  obtain ⟨ok, buf', d', hread, hok, hsector, hbuf, hmedium, hidle⟩ :=
    readSector_drive hd d.medium.capacity lba buf
  refine ⟨ok, buf', _, hread, ?_, h.update hd hmedium (hidle hbusy (hprompt.delay_lt _))⟩
  have hcap := hprompt.capacity_le
  rw [Answers, Medium.device]
  by_cases hlba : lba < d.medium.capacity
  · have hmod : lba % 2 ^ 28 = lba := Nat.mod_eq_of_lt (by omega)
    rw [Drive.serves_iff, hmod, Drive.readable, hbusy] at hok
    rw [hmod] at hsector
    cases hbad : d.medium.bad lba with
    | false =>
      simp only [hlba, hbad, decide_true, Bool.not_false, Bool.and_self, and_true] at hok
      have htrue : ok = true := hok.mpr ⟨trivial, Nat.succ_pos _, hprompt.delay_lt _⟩
      simpa [hlba, htrue] using hsector htrue
    | true =>
      have hfalse : ok = false := by
        rw [← Bool.not_eq_true, hok]
        simp [hbad]
      simp [hlba, hfalse, hbuf hfalse]
  · have hfalse : ok = false := by
      rw [← Bool.not_eq_true, hok]
      exact fun hlt => hlba hlt.1
    simp [hlba, hfalse, hbuf hfalse]

/-- **The drives are block devices.** With idle drives of at most 2^28 sectors on the channels
that answer in time, `probe_all` finds exactly these drives with their capacities; and whatever
requests are made of the disks it found, in any order, each is answered with the sector its
medium has there, or with false and an untouched buffer where the number is past the end or
the sector is bad. -/
theorem drives_are_blockDevices (h : Attached media s)
    (hprompt : ∀ c m, media c = some m → m.Prompt) :
    (probeAll s).1 = found media ∧
      ∀ reqs, (∀ r ∈ reqs, r.1 ∈ (probeAll s).1) →
        List.Forall₂ (fun r reply => ∃ c m, media c = some m ∧ r.1 = m.disk c ∧
          Answers m.device r.2.1 r.2.2 reply) reqs (readAll reqs (probeAll s).2) := by
  obtain ⟨hfound, hattached⟩ := h.probeAll hprompt
  refine ⟨hfound, fun reqs => ?_⟩
  rw [hfound]
  generalize (probeAll s).2 = s₁ at hattached
  induction reqs generalizing s₁ with
  | nil => exact fun _ => .nil
  | cons r reqs ih =>
    intro hreqs
    obtain ⟨disk, lba, buf⟩ := r
    obtain ⟨c, -, hc⟩ := List.mem_filterMap.mp (hreqs _ List.mem_cons_self)
    obtain ⟨m, hm, hdisk⟩ := Option.map_eq_some_iff.mp hc
    obtain rfl : m.disk c = disk := hdisk
    obtain ⟨ok, buf', s', hread, hanswers, h'⟩ :=
      hattached.readSector hm (hprompt c m hm) lba buf
    rw [readAll, hread]
    exact .cons ⟨c, m, hm, rfl, hanswers⟩
      (ih s' h' fun r hr => hreqs r (List.mem_cons_of_mem _ hr))

/-- One drive on the secondary channel, asked for a good sector, a bad one and one past its end. -/
theorem drives_small :
    let media : Channel → Option Medium :=
      fun c => if c = .secondary then some smallMedium else none
    let s : Channels := fun c => if c = .secondary then some smallDrive else none
    (probeAll s).1 = found media ∧
      ∀ reqs, (∀ r ∈ reqs, r.1 ∈ (probeAll s).1) →
        List.Forall₂ (fun r reply => ∃ c m, media c = some m ∧ r.1 = m.disk c ∧
          Answers m.device r.2.1 r.2.2 reply) reqs (readAll reqs (probeAll s).2) := by
  refine drives_are_blockDevices (fun c => ?_) fun c m hm => ?_
  · cases c with
    | primary => exact ⟨rfl, fun d hd => by simp at hd⟩
    | secondary => exact ⟨rfl, fun d hd => by obtain rfl := Option.some.inj hd; rfl⟩
  · cases c with
    | primary => simp at hm
    | secondary =>
      obtain rfl := Option.some.inj hm
      exact ⟨fun _ => Nat.succ_pos _, by decide⟩

end LionOS.Drivers
