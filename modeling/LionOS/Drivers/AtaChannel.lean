import LionOS.Fs.Volume

/-!
# ATA channels

What an ATA drive does at the ports of its channel: the task file of registers, the two commands
the kernel gives, the status register with BSY, DRQ and ERR, and the 16-bit data port. How long
a drive stays busy, and which of its sectors cannot be read, is up to the drive. Each command
ends with its data (DRQ) or with an error (ERR) and no data; the drives here never report a
device fault (DF), and none of them finds an error behind the data it has handed out.
-/

namespace LionOS.Drivers

open Lib Fs

/-- What is on the medium and how the drive behaves; no command changes it. -/
structure Medium where
  sectors : Nat → Sector
  /-- The words of the IDENTIFY payload. -/
  identity : Nat → UInt16
  /-- Sectors that end in an error. -/
  bad : Nat → Bool
  /-- How many status reads the `n`-th command keeps the drive busy for. -/
  delay : Nat → Nat

/-- Words 60 and 61 count the sectors. -/
def Medium.capacity (m : Medium) : Nat := (m.identity 60).toNat + 2 ^ 16 * (m.identity 61).toNat

/-- A drive and its registers. -/
structure Drive where
  medium : Medium
  secCnt : UInt8
  lbaLo : UInt8
  lbaMid : UInt8
  lbaHi : UInt8
  driveHead : UInt8
  /-- The commands given so far. -/
  issued : Nat
  busy : Nat
  err : Bool
  /-- The words left of a transfer. -/
  data : List UInt16

namespace Drive

/-- Bit 6 of the drive register selects LBA addressing, bit 4 the second drive. -/
def selected (d : Drive) : Bool := d.driveHead.toNat / 16 % 2 == 0

def lbaMode (d : Drive) : Bool := d.driveHead.toNat / 64 % 2 == 1

/-- The 28-bit address in the registers. -/
def address (d : Drive) : Nat :=
  d.lbaLo.toNat + 2 ^ 8 * d.lbaMid.toNat + 2 ^ 16 * d.lbaHi.toNat +
    2 ^ 24 * (d.driveHead.toNat % 16)

/-- The words of a sector, low byte first. -/
def sectorWords (b : Sector) : List UInt16 :=
  (List.range 256).map fun i => UInt16.ofNat (rd16 b (2 * i))

/-- The sectors a command asks for. Zero stands for 256 of them. -/
def asked (d : Drive) : List Nat :=
  (List.range (if d.secCnt = 0 then 256 else d.secCnt.toNat)).map (d.address + ·)

/-- The sector can be read. -/
def readable (d : Drive) (lba : Nat) : Bool := lba < d.medium.capacity && !d.medium.bad lba

/-- A command has been taken: the drive is busy for a while, and shows the outcome after that. -/
def outcome (d : Drive) (err : Bool) (data : List UInt16) : Drive :=
  { d with issued := d.issued + 1, busy := d.medium.delay d.issued, err := err, data := data }

/-- READ SECTOR(S), IDENTIFY, and any other command. -/
def command (d : Drive) (code : UInt8) : Drive :=
  if !d.selected then d
  else if code = 0x20 then
    if d.lbaMode && d.asked.all d.readable then
      d.outcome false (d.asked.flatMap fun lba => sectorWords (d.medium.sectors lba))
    else d.outcome true []
  else if code = 0xEC then d.outcome false ((List.range 256).map d.medium.identity)
  else d.outcome true []

/-- A byte written to a register. A busy drive does not see it. -/
def write (d : Drive) (reg : Nat) (v : UInt8) : Drive :=
  if d.busy ≠ 0 then d
  else
    match reg with
    | 2 => { d with secCnt := v }
    | 3 => { d with lbaLo := v }
    | 4 => { d with lbaMid := v }
    | 5 => { d with lbaHi := v }
    | 6 => { d with driveHead := v }
    | 7 => d.command v
    | _ => d

/-- BSY, or DRDY with DRQ while words are left and ERR after an error. -/
def status (d : Drive) : UInt8 :=
  if d.busy ≠ 0 then 0x80
  else
    match d.data.isEmpty, d.err with
    | true, false => 0x50
    | true, true => 0x51
    | false, false => 0x58
    | false, true => 0x59

/-- A byte read from a register. Looking at the status is what passes the time. -/
def read (d : Drive) (reg : Nat) : UInt8 × Drive :=
  match reg with
  | 2 => (d.secCnt, d)
  | 3 => (d.lbaLo, d)
  | 4 => (d.lbaMid, d)
  | 5 => (d.lbaHi, d)
  | 6 => (d.driveHead, d)
  | 7 => (d.status, { d with busy := d.busy - 1 })
  | _ => (0xFF, d)

/-- A word read from the data port. -/
def readWord (d : Drive) : UInt16 × Drive :=
  if d.busy ≠ 0 then (0xFFFF, d)
  else
    match d.data with
    | [] => (0xFFFF, d)
    | w :: rest => (w, { d with data := rest })

end Drive

/-- The two channels, each with its drive or none. -/
inductive Channel where
  | primary
  | secondary
  deriving DecidableEq, Repr

/-- `ATA_PRIMARY` and `ATA_SECONDARY`. -/
def Channel.base : Channel → Nat
  | .primary => 0x1F0
  | .secondary => 0x170

abbrev Channels := Channel → Option Drive

/-- The channel and register behind a port. -/
def decode (port : Nat) : Option (Channel × Nat) :=
  if 0x1F0 ≤ port ∧ port < 0x1F8 then some (.primary, port - 0x1F0)
  else if 0x170 ≤ port ∧ port < 0x178 then some (.secondary, port - 0x170)
  else none

/-- Where nothing answers, the bus floats high. -/
def inb (port : Nat) (s : Channels) : UInt8 × Channels :=
  match decode port with
  | none => (0xFF, s)
  | some (c, reg) =>
    match s c with
    | none => (0xFF, s)
    | some d => ((d.read reg).1, Function.update s c (some (d.read reg).2))

def outb (port : Nat) (v : UInt8) (s : Channels) : Channels :=
  match decode port with
  | none => s
  | some (c, reg) =>
    match s c with
    | none => s
    | some d => Function.update s c (some (d.write reg v))

def inw (port : Nat) (s : Channels) : UInt16 × Channels :=
  match decode port with
  | some (c, 0) =>
    match s c with
    | none => (0xFFFF, s)
    | some d => (d.readWord.1, Function.update s c (some d.readWord.2))
  | _ => (0xFFFF, s)

section

variable {c : Channel} {d : Drive} {s : Channels} {reg : Nat} {v : UInt8}

theorem decode_base (c : Channel) (h : reg < 8) : decode (c.base + reg) = some (c, reg) := by
  cases c with
  | primary => rw [decode, Channel.base, if_pos (by omega), Nat.add_sub_cancel_left]
  | secondary =>
    rw [decode, Channel.base, if_neg (by omega), if_pos (by omega), Nat.add_sub_cancel_left]

theorem inb_base (hd : s c = some d) (h : reg < 8) :
    inb (c.base + reg) s = ((d.read reg).1, Function.update s c (some (d.read reg).2)) := by
  simp only [inb, decode_base c h, hd]

theorem inb_none (hd : s c = none) (h : reg < 8) : inb (c.base + reg) s = (0xFF, s) := by
  simp only [inb, decode_base c h, hd]

theorem outb_base (hd : s c = some d) (h : reg < 8) :
    outb (c.base + reg) v s = Function.update s c (some (d.write reg v)) := by
  simp only [outb, decode_base c h, hd]

theorem outb_none (hd : s c = none) (h : reg < 8) : outb (c.base + reg) v s = s := by
  simp only [outb, decode_base c h, hd]

theorem inw_base (hd : s c = some d) :
    inw c.base s = (d.readWord.1, Function.update s c (some d.readWord.2)) := by
  have hdecode : decode (c.base + 0) = some (c, 0) := decode_base c (Nat.succ_pos 7)
  rw [Nat.add_zero] at hdecode
  simp only [inw, hdecode, hd]

/-- BSY is set while the drive is busy. -/
theorem Drive.status_busy (h : d.busy ≠ 0) : d.status &&& 0x80 ≠ 0 := by
  rw [Drive.status, if_pos h]
  decide

/-- The status of a drive that is not busy: BSY is clear, DRQ set while words are left, and ERR
set after an error. -/
theorem Drive.status_ready (h : d.busy = 0) :
    d.status &&& 0x80 = 0 ∧ (d.status &&& 0x08 = 0 ↔ d.data = []) ∧
      (d.status &&& 0x01 = 0 ↔ d.err = false) := by
  rw [Drive.status, if_neg (not_not.mpr h), ← List.isEmpty_iff]
  cases d.data.isEmpty with
  | false => cases d.err <;> decide
  | true => cases d.err <;> decide

end

end LionOS.Drivers
