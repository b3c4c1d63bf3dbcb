import Mathlib.Data.Fintype.Basic
import Mathlib.Data.Int.ModEq
import Mathlib.Logic.Function.Basic
import Mathlib.Tactic.Common
import Mathlib.Tactic.FinCases

/-!
# The PS/2 mouse

The interrupt feeds one byte after the other to the packet decoder, which counts to three and
has no other idea where a packet begins. The acknowledgement of the command that starts the
stream is such a byte.
-/

namespace LionOS.Drivers

/-- The statics of the driver. -/
structure Mouse where
  mouseDx : Int16
  mouseDy : Int16
  mouseBtns : UInt8
  packetBuf : Fin 3 → UInt8
  packetIdx : Fin 3

/-- Their values at boot. -/
def Mouse.initial : Mouse := ⟨0, 0, 0, fun _ => 0, 0⟩

/-- `(dx, dy, buttons)` of the three bytes. -/
def decodePacket (b0 b1 b2 : UInt8) : Int16 × Int16 × UInt8 :=
  let xSign := (b0 >>> 4) &&& 1 ≠ 0
  let ySign := (b0 >>> 5) &&& 1 ≠ 0
  let dx := b1.toUInt16.toInt16
  let dy := b2.toUInt16.toInt16
  let dx := if xSign then dx - 256 else dx
  let dy := if ySign then dy - 256 else dy
  (dx, -dy, b0 &&& 0x07)

namespace Mouse

/-- The movement since the last call. -/
def dx (m : Mouse) : Int16 × Mouse := (m.mouseDx, { m with mouseDx := 0 })

def dy (m : Mouse) : Int16 × Mouse := (m.mouseDy, { m with mouseDy := 0 })

def buttons (m : Mouse) : UInt8 := m.mouseBtns

/-- The next byte of the data port. -/
def handleByte (m : Mouse) (raw : UInt8) : Mouse :=
  let buf := Function.update m.packetBuf m.packetIdx raw
  let next := m.packetIdx + 1
  let m := { m with packetBuf := buf, packetIdx := next }
  if next = 0 then
    let (dx, dy, btns) := decodePacket (buf 0) (buf 1) (buf 2)
    { m with mouseDx := m.mouseDx + dx, mouseDy := m.mouseDy + dy, mouseBtns := btns }
  else m

end Mouse

/-- The interrupt with a byte of the device, and the calls of the kernel. Each of them is one
step: the interrupt is not interrupted, and a read is one exchange. -/
inductive MouseEvent
  | byte (raw : UInt8)
  | dx
  | dy

/-- The driver, and what the reads have returned so far. -/
structure MouseRun where
  mouse : Mouse
  dxs : List Int16
  dys : List Int16

namespace MouseRun

def initial : MouseRun := ⟨.initial, [], []⟩

def step (r : MouseRun) : MouseEvent → MouseRun
  | .byte raw => { r with mouse := r.mouse.handleByte raw }
  | .dx => { r with mouse := r.mouse.dx.2, dxs := r.dxs ++ [r.mouse.dx.1] }
  | .dy => { r with mouse := r.mouse.dy.2, dys := r.dys ++ [r.mouse.dy.1] }

def after (r : MouseRun) (events : List MouseEvent) : MouseRun := events.foldl step r

/-- All horizontal movement so far, whether it is read already or not. -/
def totalDx (r : MouseRun) : Int16 := r.dxs.sum + r.mouse.mouseDx

def totalDy (r : MouseRun) : Int16 := r.dys.sum + r.mouse.mouseDy

end MouseRun

/-- The bytes that come in during a run. -/
def bytesOf : List MouseEvent → List UInt8
  | [] => []
  | .byte raw :: events => raw :: bytesOf events
  | .dx :: events => bytesOf events
  | .dy :: events => bytesOf events

theorem bytesOf_map (bytes : List UInt8) : bytesOf (bytes.map .byte) = bytes := by
  induction bytes with
  | nil => rfl
  | cons raw bytes ih => exact congrArg (raw :: ·) ih

/-- A packet of the device. -/
structure Packet where
  b0 : UInt8
  b1 : UInt8
  b2 : UInt8
  deriving DecidableEq

namespace Packet

def bytes (p : Packet) : List UInt8 := [p.b0, p.b1, p.b2]

def decode (p : Packet) : Int16 × Int16 × UInt8 := decodePacket p.b0 p.b1 p.b2

end Packet

/-- The bytes of a stream, three at a time from the first one on. -/
def framed : List UInt8 → List Packet
  | b0 :: b1 :: b2 :: rest => ⟨b0, b1, b2⟩ :: framed rest
  | _ => []

/-- The bytes of a packet that is not complete. -/
def Mouse.pending (m : Mouse) : List UInt8 := [m.packetBuf 0, m.packetBuf 1].take m.packetIdx

/-- The buttons of the last of the packets. -/
def lastButtons (btns : UInt8) (packets : List Packet) : UInt8 :=
  packets.foldl (fun _ p => p.decode.2.2) btns

/-- What the packets add to the driver: their movement to the two sums, and the buttons of the
last one. -/
structure Decoded (r after : MouseRun) (packets : List Packet) : Prop where
  totalDx : after.totalDx = r.totalDx + (packets.map fun p => p.decode.1).sum
  totalDy : after.totalDy = r.totalDy + (packets.map fun p => p.decode.2.1).sum
  btns : after.mouse.buttons = lastButtons r.mouse.buttons packets

variable {m : Mouse} {r u w : MouseRun} {events : List MouseEvent} {packets : List Packet}
  {p : Packet}

/-- No packet is completed. -/
theorem Decoded.none (hx : u.totalDx = r.totalDx) (hy : u.totalDy = r.totalDy)
    (hbtns : u.mouse.buttons = r.mouse.buttons) : Decoded r u [] :=
  ⟨hx.trans (Int16.add_zero _).symm, hy.trans (Int16.add_zero _).symm, hbtns⟩

theorem Decoded.cons (h : Decoded r u [p]) (hrest : Decoded u w packets) :
    Decoded r w (p :: packets) := by
  refine ⟨?_, ?_, ?_⟩
  · rw [hrest.totalDx, h.totalDx, List.map_singleton, List.sum_singleton, List.map_cons,
      List.sum_cons, Int16.add_assoc]
  · rw [hrest.totalDy, h.totalDy, List.map_singleton, List.sum_singleton, List.map_cons,
      List.sum_cons, Int16.add_assoc]
  · rw [hrest.btns, h.btns]
    rfl

theorem Decoded.trans (h : Decoded r u []) (hrest : Decoded u w packets) :
    Decoded r w packets := by
  refine ⟨?_, ?_, ?_⟩
  · rw [hrest.totalDx, h.totalDx, List.map_nil, List.sum_nil, Int16.add_zero]
  · rw [hrest.totalDy, h.totalDy, List.map_nil, List.sum_nil, Int16.add_zero]
  · rw [hrest.btns, h.btns]
    rfl

/-- One of the first two bytes of a packet is only stored. -/
theorem step_byte_of_ne (h : r.mouse.packetIdx ≠ 2) (raw : UInt8) :
    (r.step (.byte raw)).mouse.pending = r.mouse.pending ++ [raw] ∧
      Decoded r (r.step (.byte raw)) [] := by
  obtain ⟨⟨x, y, btns, buf, idx⟩, dxs, dys⟩ := r
  fin_cases idx
  · exact ⟨rfl, .none rfl rfl rfl⟩
  · exact ⟨rfl, .none rfl rfl rfl⟩
  · exact absurd rfl h

/-- The third one completes the packet. -/
theorem step_byte_of_last (h : r.mouse.packetIdx = 2) (raw : UInt8) :
    ∃ p : Packet, p.bytes = r.mouse.pending ++ [raw] ∧
      (r.step (.byte raw)).mouse.pending = [] ∧ Decoded r (r.step (.byte raw)) [p] := by
  obtain ⟨⟨x, y, btns, buf, idx⟩, dxs, dys⟩ := r
  cases h
  refine ⟨⟨buf 0, buf 1, raw⟩, rfl, rfl, ?_, ?_, rfl⟩
  · rw [List.map_singleton, List.sum_singleton]
    exact (Int16.add_assoc ..).symm
  · rw [List.map_singleton, List.sum_singleton]
    exact (Int16.add_assoc ..).symm

/-- A read takes movement from the static and returns it. -/
theorem decoded_step_dx (r : MouseRun) : Decoded r (r.step .dx) [] := by
  refine .none ?_ rfl rfl
  change (r.dxs ++ [r.mouse.mouseDx]).sum + 0 = r.totalDx
  rw [List.sum_append, List.sum_singleton, Int16.add_zero, MouseRun.totalDx]

theorem decoded_step_dy (r : MouseRun) : Decoded r (r.step .dy) [] := by
  refine .none rfl ?_ rfl
  change (r.dys ++ [r.mouse.mouseDy]).sum + 0 = r.totalDy
  rw [List.sum_append, List.sum_singleton, Int16.add_zero, MouseRun.totalDy]

theorem framed_pending (m : Mouse) : framed m.pending = [] := by
  obtain ⟨x, y, btns, buf, idx⟩ := m
  fin_cases idx <;> rfl

theorem framed_bytes_append (p : Packet) (rest : List UInt8) :
    framed (p.bytes ++ rest) = p :: framed rest := rfl

/-- Whatever is read in between, the bytes are decoded three at a time, the buffered ones
first. -/
theorem decoded_after (r : MouseRun) (events : List MouseEvent) :
    Decoded r (r.after events) (framed (r.mouse.pending ++ bytesOf events)) := by
  induction events generalizing r with
  | nil =>
    rw [bytesOf, List.append_nil, framed_pending]
    exact .none rfl rfl rfl
  | cons event events ih =>
    have hrest := ih (r.step event)
    cases event with
    | byte raw =>
      by_cases hidx : r.mouse.packetIdx = 2
      · obtain ⟨p, hp, hnone, hstep⟩ := step_byte_of_last hidx raw
        rw [hnone, List.nil_append] at hrest
        rw [bytesOf, List.append_cons, ← hp, framed_bytes_append]
        exact hstep.cons hrest
      · obtain ⟨hstored, hstep⟩ := step_byte_of_ne hidx raw
        rw [hstored, List.append_assoc] at hrest
        exact hstep.trans hrest
    | dx => exact (decoded_step_dx r).trans hrest
    | dy => exact (decoded_step_dy r).trans hrest

/-- The driver has the movement and the buttons of the packets, each decoded as it was sent. -/
structure InFrame (r : MouseRun) (packets : List Packet) : Prop where
  totalDx : r.totalDx = (packets.map fun p => p.decode.1).sum
  totalDy : r.totalDy = (packets.map fun p => p.decode.2.1).sum
  btns : ∀ p ∈ packets.getLast?, r.mouse.buttons = p.decode.2.2

theorem lastButtons_of_getLast (btns : UInt8) (h : p ∈ packets.getLast?) :
    lastButtons btns packets = p.decode.2.2 := by
  obtain ⟨before, rfl⟩ := List.getLast?_eq_some_iff.mp h
  rw [lastButtons, List.foldl_append]
  rfl

theorem framed_flatMap (packets : List Packet) :
    framed (packets.flatMap Packet.bytes) = packets := by
  induction packets with
  | nil => rfl
  | cons p packets ih => rw [List.flatMap_cons, framed_bytes_append, ih]

private theorem totals_initial : MouseRun.initial.totalDx = 0 ∧ MouseRun.initial.totalDy = 0 :=
  ⟨rfl, rfl⟩

/-- What the driver has after the bytes of any packets, read in frame or not. -/
theorem inFrame_of_framed (h : framed (bytesOf events) = packets) :
    InFrame (MouseRun.initial.after events) packets := by
  have hrun := decoded_after .initial events
  have hpending : MouseRun.initial.mouse.pending = [] := rfl
  rw [hpending, List.nil_append, h] at hrun
  refine ⟨?_, ?_, ?_⟩
  · rw [hrun.totalDx, totals_initial.1, Int16.zero_add]
  · rw [hrun.totalDy, totals_initial.2, Int16.zero_add]
  · intro p hp
    rw [hrun.btns, lastButtons_of_getLast _ hp]

/-- Without a byte before the first packet the decoder is in frame. -/
theorem inFrame_of_packets (h : bytesOf events = packets.flatMap Packet.bytes) :
    InFrame (MouseRun.initial.after events) packets :=
  inFrame_of_framed (by rw [h, framed_flatMap])

/-! ## The acknowledgement -/

/-- What the device answers to a command. -/
def ack : UInt8 := 0xFA

/-- The packets as the decoder frames them behind one byte more. -/
def oneByteLate (b : UInt8) : List Packet → List Packet
  | [] => []
  | p :: packets => ⟨b, p.b0, p.b1⟩ :: oneByteLate p.b2 packets

theorem framed_cons_flatMap (b : UInt8) (packets : List Packet) :
    framed (b :: packets.flatMap Packet.bytes) = oneByteLate b packets := by
  induction packets generalizing b with
  | nil => rfl
  | cons p packets ih => exact congrArg (⟨b, p.b0, p.b1⟩ :: ·) (ih p.b2)

/-- A byte below the sign that a header byte has for it. -/
def nineBits (header : UInt8) (sign : Nat) (low : UInt8) : Int :=
  low.toNat - if header.toNat.testBit sign then 256 else 0

private theorem sign_iff (b : UInt8) (k : Nat) (hk : k < 8) :
    (b >>> UInt8.ofNat k) &&& 1 ≠ 0 ↔ b.toNat.testBit k = true := by
  have hmod : (UInt8.ofNat k).toNat % 8 = k := by
    rw [UInt8.toNat_ofNat_of_lt' (by unfold UInt8.size; omega)]
    omega
  rw [Nat.testBit, Nat.and_comm, bne_iff_ne, ne_eq, ne_eq, ← UInt8.toNat_inj, UInt8.toNat_and,
    UInt8.toNat_shiftRight, hmod]
  rfl

theorem signed_eq (header low : UInt8) (k : Nat) (hk : k < 8) :
    (if (header >>> UInt8.ofNat k) &&& 1 ≠ 0 then low.toUInt16.toInt16 - 256
      else low.toUInt16.toInt16) = Int16.ofInt (nineBits header k low) := by
  have hlow : low.toUInt16.toInt16 = Int16.ofInt low.toNat := by
    rw [← UInt16.ofNat_uInt8ToNat, UInt16.toInt16_ofNat', Int16.ofInt_eq_ofNat]
  simp only [sign_iff header k hk, nineBits, Int16.ofInt_sub, hlow]
  split
  · rfl
  · exact (Int16.sub_zero _).symm

theorem decode_dx (p : Packet) : p.decode.1 = Int16.ofInt (nineBits p.b0 4 p.b1) :=
  signed_eq p.b0 p.b1 4 (by decide)

theorem decode_dy (p : Packet) : p.decode.2.1 = -Int16.ofInt (nineBits p.b0 5 p.b2) :=
  congrArg (fun d : Int16 => -d) (signed_eq p.b0 p.b2 5 (by decide))

theorem sum_ofInt (f : Packet → Int) (packets : List Packet) :
    (packets.map fun p => Int16.ofInt (f p)).sum = Int16.ofInt (packets.map f).sum := by
  induction packets with
  | nil => rfl
  | cons p packets ih => rw [List.map_cons, List.sum_cons, ih, List.map_cons, List.sum_cons,
      Int16.ofInt_add]

theorem ofInt_inj_iff (a b : Int) : Int16.ofInt a = Int16.ofInt b ↔ a ≡ b [ZMOD 2 ^ 16] := by
  have hsize : Int16.size = 2 ^ 16 := rfl
  rw [Int16.ofInt_eq_iff_bmod_eq_toInt, Int16.toInt_ofInt, hsize, Int.ModEq]
  constructor
  · intro h
    calc a % 2 ^ 16 = a.bmod (2 ^ 16) % 2 ^ 16 := Int.bmod_emod.symm
      _ = b.bmod (2 ^ 16) % 2 ^ 16 := congrArg (· % 2 ^ 16) h
      _ = b % 2 ^ 16 := Int.bmod_emod
  · intro h
    calc a.bmod (2 ^ 16) = (a % 2 ^ 16).bmod (2 ^ 16) := (Int.emod_bmod a _).symm
      _ = (b % 2 ^ 16).bmod (2 ^ 16) := congrArg (Int.bmod · (2 ^ 16)) h
      _ = b.bmod (2 ^ 16) := Int.emod_bmod b _

/-- A byte late, the packets have the same movement, up to the width of the sums, and the same
buttons in the last of them. -/
structure AgreesLate (packets : List Packet) : Prop where
  dx : ((oneByteLate ack packets).map fun p => nineBits p.b0 4 p.b1).sum ≡
    (packets.map fun p => nineBits p.b0 4 p.b1).sum [ZMOD 2 ^ 16]
  dy : ((oneByteLate ack packets).map fun p => nineBits p.b0 5 p.b2).sum ≡
    (packets.map fun p => nineBits p.b0 5 p.b2).sum [ZMOD 2 ^ 16]
  btns : ∀ p ∈ packets.getLast?, ∀ l ∈ (oneByteLate ack packets).getLast?,
    l.b0 &&& 0x07 = p.b0 &&& 0x07

theorem sum_decode_dx (packets : List Packet) :
    (packets.map fun p => p.decode.1).sum =
      Int16.ofInt (packets.map fun p => nineBits p.b0 4 p.b1).sum := by
  rw [← sum_ofInt]
  simp only [decode_dx]

theorem sum_decode_dy (packets : List Packet) :
    (packets.map fun p => p.decode.2.1).sum =
      -Int16.ofInt (packets.map fun p => nineBits p.b0 5 p.b2).sum := by
  induction packets with
  | nil => rfl
  | cons p packets ih =>
    rw [List.map_cons, List.sum_cons, ih, decode_dy, List.map_cons, List.sum_cons,
      Int16.ofInt_add, Int16.neg_add, Int16.sub_eq_add_neg]

private theorem oneByteLate_ne_nil (b : UInt8) (h : packets ≠ []) : oneByteLate b packets ≠ [] := by
  cases packets with
  | nil => exact absurd rfl h
  | cons p packets => exact List.cons_ne_nil _ _

theorem inFrame_iff_agreesLate
    (h : bytesOf events = ack :: packets.flatMap Packet.bytes) :
    InFrame (MouseRun.initial.after events) packets ↔ AgreesLate packets := by
  have hrun := inFrame_of_framed (by rw [h, framed_cons_flatMap])
  have hdx := hrun.totalDx
  have hdy := hrun.totalDy
  have hbtns := hrun.btns
  rw [sum_decode_dx] at hdx
  rw [sum_decode_dy] at hdy
  constructor
  · intro hin
    refine ⟨?_, ?_, fun p hp l hl => ?_⟩
    · rw [← ofInt_inj_iff, ← hdx, hin.totalDx, sum_decode_dx]
    · rw [← ofInt_inj_iff, ← Int16.neg_inj, ← hdy, hin.totalDy, sum_decode_dy]
    · exact (hbtns l hl).symm.trans (hin.btns p hp)
  · intro hlate
    refine ⟨?_, ?_, fun p hp => ?_⟩
    · rw [hdx, sum_decode_dx, ofInt_inj_iff]
      exact hlate.dx
    · rw [hdy, sum_decode_dy, Int16.neg_inj, ofInt_inj_iff]
      exact hlate.dy
    · have hne : packets ≠ [] := by
        rintro rfl
        cases hp
      have hl := List.getLast?_eq_some_getLast (oneByteLate_ne_nil ack hne)
      exact (hbtns _ hl).trans (hlate.btns p hp _ hl)

/-! ## In frame all the way -/

/-- The decoder takes the same signs and buttons from both bytes. -/
def SameHeader (a b : UInt8) : Prop :=
  a.toNat.testBit 4 = b.toNat.testBit 4 ∧ a.toNat.testBit 5 = b.toNat.testBit 5 ∧
    a &&& 0x07 = b &&& 0x07

/-- A packet of three times one byte, with the signs and the buttons of the acknowledgement. -/
def LooksLikeAck (p : Packet) : Prop := p.b1 = p.b0 ∧ p.b2 = p.b0 ∧ SameHeader p.b0 ack

/-- The byte before the next packet. -/
def lastByte (b : UInt8) (packets : List Packet) : UInt8 :=
  packets.foldl (fun _ p => p.b2) b

private theorem nineBits_mem (header : UInt8) (sign : Nat) (low : UInt8) :
    -256 ≤ nineBits header sign low ∧ nineBits header sign low < 256 := by
  have hlow := low.toNat_lt
  unfold nineBits
  split <;> omega

theorem nineBits_modEq_iff {a b x y : UInt8} {k : Nat} :
    nineBits a k x ≡ nineBits b k y [ZMOD 2 ^ 16] ↔
      x = y ∧ a.toNat.testBit k = b.toNat.testBit k := by
  constructor
  · intro h
    have ha := nineBits_mem a k x
    have hb := nineBits_mem b k y
    have heq : nineBits a k x = nineBits b k y := by
      unfold Int.ModEq at h
      omega
    have hx := x.toNat_lt
    have hy := y.toNat_lt
    rw [← UInt8.toNat_inj]
    unfold nineBits at heq
    split at heq <;> rename_i hka <;> split at heq <;> rename_i hkb
    · exact ⟨by omega, hka.trans hkb.symm⟩
    · omega
    · omega
    · exact ⟨by omega, (Bool.eq_false_of_not_eq_true hka).trans
        (Bool.eq_false_of_not_eq_true hkb).symm⟩
  · rintro ⟨rfl, hk⟩
    rw [nineBits, nineBits, hk]

theorem oneByteLate_concat (b : UInt8) (packets : List Packet) (p : Packet) :
    oneByteLate b (packets ++ [p]) =
      oneByteLate b packets ++ [⟨lastByte b packets, p.b0, p.b1⟩] := by
  induction packets generalizing b with
  | nil => rfl
  | cons first packets ih => rw [List.cons_append, oneByteLate, ih]; rfl

private theorem sum_map_concat (f : Packet → Int) (packets : List Packet) (p : Packet) :
    ((packets ++ [p]).map f).sum = (packets.map f).sum + f p := by
  rw [List.map_append, List.sum_append, List.map_singleton, List.sum_singleton]

/-- What one packet more has to be. -/
theorem agreesLate_concat (h : AgreesLate packets) :
    AgreesLate (packets ++ [p]) ↔
      p.b0 = p.b1 ∧ p.b1 = p.b2 ∧ SameHeader (lastByte ack packets) p.b0 := by
  constructor
  · intro hlate
    have hdx := hlate.dx
    have hdy := hlate.dy
    have hbtns := hlate.btns p List.getLast?_concat
    rw [oneByteLate_concat] at hdx hdy hbtns
    rw [sum_map_concat, sum_map_concat] at hdx hdy
    have hx := nineBits_modEq_iff.mp (h.dx.add_left_cancel hdx)
    have hy := nineBits_modEq_iff.mp (h.dy.add_left_cancel hdy)
    exact ⟨hx.1, hy.1, hx.2, hy.2, hbtns _ List.getLast?_concat⟩
  · rintro ⟨hx, hy, hsignX, hsignY, hbtns⟩
    refine ⟨?_, ?_, fun q hq l hl => ?_⟩
    · rw [oneByteLate_concat, sum_map_concat, sum_map_concat]
      exact h.dx.add (nineBits_modEq_iff.mpr ⟨hx, hsignX⟩)
    · rw [oneByteLate_concat, sum_map_concat, sum_map_concat]
      exact h.dy.add (nineBits_modEq_iff.mpr ⟨hy, hsignY⟩)
    · rw [oneByteLate_concat, List.getLast?_concat, Option.mem_some_iff] at hl
      rw [List.getLast?_concat, Option.mem_some_iff] at hq
      rw [← hl, ← hq]
      exact hbtns

theorem agreesLate_nil : AgreesLate [] := ⟨rfl, rfl, fun _ h => by cases h⟩

theorem sameHeader_lastByte (h : ∀ p ∈ packets, LooksLikeAck p) :
    SameHeader (lastByte ack packets) ack := by
  induction packets using List.reverseRecOn with
  | nil => exact ⟨rfl, rfl, rfl⟩
  | append_singleton packets p ih =>
    obtain ⟨-, hlast, hheader⟩ := h p (by simp)
    have heq : lastByte ack (packets ++ [p]) = p.b2 := by
      rw [lastByte, List.foldl_append]
      rfl
    rw [heq, hlast]
    exact hheader

theorem SameHeader.symm {a b : UInt8} (h : SameHeader a b) : SameHeader b a :=
  ⟨h.1.symm, h.2.1.symm, h.2.2.symm⟩

theorem SameHeader.trans {a b c : UInt8} (h : SameHeader a b) (hbc : SameHeader b c) :
    SameHeader a c :=
  ⟨h.1.trans hbc.1, h.2.1.trans hbc.2.1, h.2.2.trans hbc.2.2⟩

/-- The decoder agrees with the device all the way exactly if every packet looks like the
acknowledgement. -/
private theorem agreesLate_throughout_iff :
    (∀ sent, sent <+: packets → AgreesLate sent) ↔ ∀ p ∈ packets, LooksLikeAck p := by
  induction packets using List.reverseRecOn with
  | nil =>
    constructor
    · intro _ p hp
      cases hp
    · intro _ sent hsent
      rw [List.prefix_nil.mp hsent]
      exact agreesLate_nil
  | append_singleton packets p ih =>
    constructor
    · intro h
      have hbefore := ih.mp fun sent hsent => h sent (hsent.trans (List.prefix_append _ _))
      obtain ⟨hx, hy, hheader⟩ :=
        (agreesLate_concat (h packets (List.prefix_append _ _))).mp (h _ (List.prefix_refl _))
      intro q hq
      rcases List.mem_append.mp hq with hq | hq
      · exact hbefore q hq
      · rw [List.mem_singleton.mp hq]
        exact ⟨hx.symm, (hx.trans hy).symm,
          hheader.symm.trans (sameHeader_lastByte hbefore)⟩
    · intro h sent hsent
      have hbefore : ∀ q ∈ packets, LooksLikeAck q := fun q hq =>
        h q (List.mem_append_left _ hq)
      have hall := ih.mpr hbefore
      rcases List.prefix_concat_iff.mp hsent with hfull | hsent
      · obtain ⟨hx, hy, hheader⟩ := h p (by simp)
        rw [hfull]
        exact (agreesLate_concat (hall packets (List.prefix_refl _))).mpr
          ⟨hx.symm, hx.trans hy.symm, (sameHeader_lastByte hbefore).trans hheader.symm⟩
      · exact hall sent hsent

/-- Behind the acknowledgement, every packet is decoded from the last byte of the packet before
it and its own first two. A stream comes out right exactly if it has the same sums that way, and
it comes out right packet by packet exactly if all of them look like the acknowledgement. -/
theorem inFrame_behind_ack_iff (packets : List Packet) :
    (∀ events, bytesOf events = ack :: packets.flatMap Packet.bytes →
      (InFrame (MouseRun.initial.after events) packets ↔ AgreesLate packets)) ∧
    ((∀ sent, sent <+: packets → ∀ events, bytesOf events = ack :: sent.flatMap Packet.bytes →
      InFrame (MouseRun.initial.after events) sent) ↔ ∀ p ∈ packets, LooksLikeAck p) := by
  refine ⟨fun events h => inFrame_iff_agreesLate h, ?_⟩
  rw [← agreesLate_throughout_iff]
  constructor
  · intro h sent hsent
    have hbytes := bytesOf_map (ack :: sent.flatMap Packet.bytes)
    exact (inFrame_iff_agreesLate hbytes).mp (h sent hsent _ hbytes)
  · intro h sent hsent events hbytes
    exact (inFrame_iff_agreesLate hbytes).mpr (h sent hsent)

theorem inFrame_behind_ack_iff_lucky :
    InFrame (MouseRun.initial.after [.byte ack, .byte 0x32, .dx, .byte 0x32, .byte 0x32])
      [⟨0x32, 0x32, 0x32⟩] :=
  (inFrame_behind_ack_iff [⟨0x32, 0x32, 0x32⟩]).2.mpr
    (fun p hp => by
      rw [List.mem_singleton.mp hp]
      exact ⟨rfl, rfl, rfl, rfl, rfl⟩)
    _ (List.prefix_refl _) _ rfl

/-- One step to the right comes out as 248 steps to the left. -/
theorem first_packet_out_of_frame :
    (MouseRun.initial.after [.byte ack, .byte 0x08, .byte 1, .byte 0]).totalDx = -248 ∧
      ¬ InFrame (MouseRun.initial.after [.byte ack, .byte 0x08, .byte 1, .byte 0])
        [⟨0x08, 1, 0⟩] :=
  ⟨by decide, fun h => absurd h.totalDx (by decide)⟩

end LionOS.Drivers
