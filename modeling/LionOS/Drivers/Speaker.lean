import LionOS.Interrupts.Controllers
import Mathlib.Tactic.IntervalCases
import Mathlib.Tactic.SplitIfs

/-!
# The timer chip and the speaker

The 8254 has three channels behind one control port. A control word picks the channel, and the
count follows in two bytes at the channel's own port. The system timer is channel 0; the
speaker plays channel 2 while its gate at port 0x61 is open. Both are programmed independently,
by whoever calls.

The kernel is built with overflow checks. A beep whose waiting loop would count further than a
32-bit word stops the kernel with the speaker on.
-/

namespace LionOS.Drivers

open Interrupts

/-- A channel of the 8254. `access` says which bytes of the count are written, and `highNext`
that the low one is there already. -/
structure PitChannel where
  mode : UInt8
  access : UInt8
  highNext : Bool
  low : UInt8
  reload : UInt16
  deriving DecidableEq

namespace PitChannel

/-- A byte at the channel's port. -/
def data (c : PitChannel) (v : UInt8) : PitChannel :=
  if c.access = 1 then { c with reload := v.toUInt16 }
  else if c.access = 2 then { c with reload := v.toUInt16 <<< 8 }
  else if c.highNext then
    { c with highNext := false, reload := c.low.toUInt16 ||| (v.toUInt16 <<< 8) }
  else { c with highNext := true, low := v }

/-- How many ticks of the input clock make one of the channel. -/
def period (c : PitChannel) : Nat := if c.reload = 0 then 65536 else c.reload.toNat

end PitChannel

inductive PitIndex where
  | ch0
  | ch1
  | ch2
  deriving DecidableEq

/-- The channel a control word is for. The fourth number reads back. -/
def pitIndex (v : UInt8) : Option PitIndex :=
  if v >>> 6 = 0 then some .ch0
  else if v >>> 6 = 1 then some .ch1
  else if v >>> 6 = 2 then some .ch2
  else none

/-- The chip, and what is stored of port 0x61. -/
structure Board where
  channel : PitIndex → PitChannel
  gate : UInt8

namespace Board

variable {b : Board}

/-- A word at the control port. No access at all latches a count to be read. -/
def control (b : Board) (v : UInt8) : Board :=
  let access := v >>> 4 &&& 3
  match pitIndex v with
  | none => b
  | some i =>
    if access = 0 then b
    else
      { b with
        channel := Function.update b.channel i
          { b.channel i with mode := v >>> 1 &&& 7, access := access, highNext := false } }

def setData (b : Board) (i : PitIndex) (v : UInt8) : Board :=
  { b with channel := Function.update b.channel i ((b.channel i).data v) }

def outb (b : Board) (port : UInt16) (v : UInt8) : Board :=
  if port = 0x40 then b.setData .ch0 v
  else if port = 0x41 then b.setData .ch1 v
  else if port = 0x42 then b.setData .ch2 v
  else if port = 0x43 then b.control v
  else if port = 0x61 then { b with gate := v &&& 0x0F }
  else b

/-- Port 0x61. The upper half is the state of other wires. -/
def inb61 (b : Board) (wires : UInt8) : UInt8 := b.gate ||| (wires &&& 0xF0)

end Board

/-- An access of the interrupt code as the board sees it. -/
def onBoard (b : Board) : Op → Board
  | .outb port v => b.outb port v
  | _ => b

def pitCh2 : UInt16 := 0x42
def speakerPort : UInt16 := 0x61

/-- The reload value of channel 2 for `hz`. -/
def pit2Divisor (hz : UInt32) : UInt16 :=
  if hz = 0 then 0xFFFF
  else (max 1 (min (1193182 / hz) 0xFFFF)).toUInt16

def toneOn (b : Board) (hz : UInt32) (wires : UInt8) : Board :=
  let div := pit2Divisor hz
  let b := b.outb pitCtrl 0xB6
  let b := b.outb pitCh2 (div &&& 0xFF).toUInt8
  let b := b.outb pitCh2 (div >>> 8).toUInt8
  let gate := b.inb61 wires ||| 0x03
  b.outb speakerPort gate

def toneOff (b : Board) (wires : UInt8) : Board :=
  let v := b.inb61 wires &&& ~~~0x03
  b.outb speakerPort v

/-- The number of turns of the waiting loop is a product of 32-bit words. -/
def Waits (ms : UInt32) : Prop := ms.toNat * 80000 < 2 ^ 32

instance (ms : UInt32) : Decidable (Waits ms) := inferInstanceAs (Decidable (_ < _))

/-- The board after a beep, or the one that a panic on the way leaves. The call waits between
the two by counting. -/
def beep (b : Board) (hz ms : UInt32) (wires wires' : UInt8) : Except Board Board :=
  let b := toneOn b hz wires
  if Waits ms then .ok (toneOff b wires') else .error b

/-- A call of the drivers. -/
inductive PitCall where
  | timerInit (hz : UInt64)
  | toneOn (hz : UInt32) (wires : UInt8)
  | toneOff (wires : UInt8)
  | beep (hz ms : UInt32) (wires wires' : UInt8)

/-- The call comes back. -/
def PitCall.Returns : PitCall → Prop
  | .beep _ ms _ _ => Waits ms
  | _ => True

namespace Board

def call (b : Board) : PitCall → Except Board Board
  | .timerInit hz => .ok ((timerInit hz).foldl onBoard b)
  | .toneOn hz wires => .ok (Drivers.toneOn b hz wires)
  | .toneOff wires => .ok (Drivers.toneOff b wires)
  | .beep hz ms wires wires' => Drivers.beep b hz ms wires wires'

/-- The calls of the kernel, up to one that stops it. -/
def run (b : Board) : List PitCall → Except Board Board
  | [] => .ok b
  | call :: calls => (b.call call).bind fun b => b.run calls

end Board

/-- A reload value: the clock over the frequency, at least 1 and at most what fits. -/
def reloadOf (hz : Nat) : Nat := if hz = 0 then 65535 else max 1 (min (1193182 / hz) 65535)

theorem clamp64_toNat (a : UInt64) :
    (max 1 (min a 0xFFFF)).toNat = max 1 (min a.toNat 65535) := by
  have hmin : min a 0xFFFF = if a ≤ 0xFFFF then a else 0xFFFF := rfl
  have hmax : ∀ b : UInt64, max 1 b = if 1 ≤ b then b else 1 := fun _ => rfl
  rw [hmin, hmax]
  simp only [UInt64.le_iff_toNat_le]
  split_ifs <;> simp_all
  omega

theorem clamp32_toNat (a : UInt32) :
    (max 1 (min a 0xFFFF)).toNat = max 1 (min a.toNat 65535) := by
  have hmin : min a 0xFFFF = if a ≤ 0xFFFF then a else 0xFFFF := rfl
  have hmax : ∀ b : UInt32, max 1 b = if 1 ≤ b then b else 1 := fun _ => rfl
  rw [hmin, hmax]
  simp only [UInt32.le_iff_toNat_le]
  split_ifs <;> simp_all
  omega

theorem pitDivisor_toNat (hz : UInt64) : (pitDivisor hz).toNat = reloadOf hz.toNat := by
  unfold pitDivisor reloadOf
  by_cases h : hz = 0
  · subst h
    rfl
  · have hne : hz.toNat ≠ 0 := fun h0 => h (UInt64.toNat_inj.mp h0)
    rw [if_neg h, if_neg hne, UInt64.toNat_toUInt16, clamp64_toNat, UInt64.toNat_div]
    exact Nat.mod_eq_of_lt (by omega)

theorem pit2Divisor_toNat (hz : UInt32) : (pit2Divisor hz).toNat = reloadOf hz.toNat := by
  unfold pit2Divisor reloadOf
  by_cases h : hz = 0
  · subst h
    rfl
  · have hne : hz.toNat ≠ 0 := fun h0 => h (UInt32.toNat_inj.mp h0)
    rw [if_neg h, if_neg hne, UInt32.toNat_toUInt16, clamp32_toNat, UInt32.toNat_div]
    exact Nat.mod_eq_of_lt (by omega)

/-- A count put together from its two bytes. -/
theorem low_or_high (d : UInt16) :
    (d &&& 0xFF).toUInt8.toUInt16 ||| ((d >>> 8).toUInt8.toUInt16 <<< 8) = d := by
  have hd : d.toNat < 65536 := d.toNat_lt
  have hmask : d.toNat % 256 &&& 255 = d.toNat % 256 := by
    rw [Nat.and_two_pow_sub_one_eq_mod _ 8]
    exact Nat.mod_mod _ _
  have hlow : (d &&& 0xFF).toUInt8.toUInt16.toNat = d.toNat % 256 := by
    simp [hmask]
  have hhigh : ((d >>> 8).toUInt8.toUInt16 <<< 8).toNat = (d.toNat / 256) <<< 8 := by
    simp [Nat.shiftLeft_eq, Nat.shiftRight_eq_div_pow]
    omega
  have hlt : d.toNat % 256 < 2 ^ 8 := Nat.mod_lt _ (Nat.succ_pos _)
  refine UInt16.toNat_inj.mp ?_
  rw [UInt16.toNat_or, hlow, hhigh, Nat.or_comm, ← Nat.shiftLeft_add_eq_or_of_lt hlt,
    Nat.shiftLeft_eq]
  omega

/-- A channel that is programmed with mode 3 and a count. -/
def squareWave (d : UInt16) : PitChannel where
  mode := 3
  access := 3
  highNext := false
  low := (d &&& 0xFF).toUInt8
  reload := d

/-- The two bytes of a count, behind a control word for mode 3. -/
theorem data_data (c : PitChannel) (d : UInt16) :
    (({ c with mode := 3, access := 3, highNext := false }.data (d &&& 0xFF).toUInt8).data
      (d >>> 8).toUInt8) = squareWave d := by
  have hdata : ({ c with mode := 3, access := 3, highNext := false }.data
      (d &&& 0xFF).toUInt8).data (d >>> 8).toUInt8 =
        { squareWave d with
          reload := (d &&& 0xFF).toUInt8.toUInt16 ||| ((d >>> 8).toUInt8.toUInt16 <<< 8) } := rfl
  rw [hdata, low_or_high]
  rfl

private theorem setData_update (b : Board) (i : PitIndex) (c : PitChannel) (v : UInt8) :
    Board.setData { b with channel := Function.update b.channel i c } i v =
      { b with channel := Function.update b.channel i (c.data v) } := by
  simp only [Board.setData, Function.update_self, Function.update_idem]

/-- A control word for mode 3 and the two bytes of a count. -/
theorem setData_setData (b : Board) (i : PitIndex) (d : UInt16) :
    (Board.setData
      { b with
        channel := Function.update b.channel i
          { b.channel i with mode := 3, access := 3, highNext := false } }
      i (d &&& 0xFF).toUInt8).setData i (d >>> 8).toUInt8 =
        { b with channel := Function.update b.channel i (squareWave d) } := by
  rw [setData_update, setData_update, data_data]

theorem timerInit_board (b : Board) (hz : UInt64) :
    (timerInit hz).foldl onBoard b =
      { b with channel := Function.update b.channel .ch0 (squareWave (pitDivisor hz)) } :=
  setData_setData b .ch0 (pitDivisor hz)

theorem gate_on (gate wires : UInt8) :
    ((gate ||| (wires &&& 0xF0)) ||| 0x03) &&& 0x0F = (gate &&& 0x0C) ||| 0x03 := by
  apply UInt8.eq_of_toBitVec_eq
  ext i hi
  simp
  interval_cases i <;> simp

theorem gate_off (gate wires : UInt8) :
    ((gate ||| (wires &&& 0xF0)) &&& ~~~0x03) &&& 0x0F = gate &&& 0x0C := by
  apply UInt8.eq_of_toBitVec_eq
  ext i hi
  simp
  interval_cases i <;> simp

theorem toneOn_board (b : Board) (hz : UInt32) (wires : UInt8) :
    toneOn b hz wires =
      { channel := Function.update b.channel .ch2 (squareWave (pit2Divisor hz))
        gate := (b.gate &&& 0x0C) ||| 0x03 } := by
  have hchannel : toneOn b hz wires =
      { (Board.setData
          { b with
            channel := Function.update b.channel .ch2
              { b.channel .ch2 with mode := 3, access := 3, highNext := false } }
          .ch2 (pit2Divisor hz &&& 0xFF).toUInt8).setData .ch2 (pit2Divisor hz >>> 8).toUInt8 with
        gate := ((b.gate ||| (wires &&& 0xF0)) ||| 0x03) &&& 0x0F } := rfl
  rw [hchannel, setData_setData, gate_on]

theorem toneOff_board (b : Board) (wires : UInt8) :
    toneOff b wires = { b with gate := b.gate &&& 0x0C } := by
  have hgate : toneOff b wires =
      { b with gate := ((b.gate ||| (wires &&& 0xF0)) &&& ~~~0x03) &&& 0x0F } := rfl
  rw [hgate, gate_off]

/-! ## Runs -/

/-- What was asked for last: the frequency of the timer, that of the speaker, and whether the
speaker is to sound. -/
structure Asked where
  timer : Option UInt64
  tone : Option UInt32
  on : Option Bool

def Asked.call (a : Asked) : PitCall → Asked
  | .timerInit hz => { a with timer := some hz }
  | .toneOn hz _ => { a with tone := some hz, on := some true }
  | .toneOff _ => { a with on := some false }
  | .beep hz _ _ _ => { a with tone := some hz, on := some false }

def asked (calls : List PitCall) : Asked := calls.foldl Asked.call ⟨none, none, none⟩

/-- The board `b` as it has become by what was asked for. -/
def Board.after (b : Board) (a : Asked) : Board where
  channel
    | .ch0 => a.timer.elim (b.channel .ch0) fun hz => squareWave (pitDivisor hz)
    | .ch1 => b.channel .ch1
    | .ch2 => a.tone.elim (b.channel .ch2) fun hz => squareWave (pit2Divisor hz)
  gate := a.on.elim b.gate fun on => (b.gate &&& 0x0C) ||| if on then 0x03 else 0

theorem gate_after (b : Board) (a : Asked) : (b.after a).gate &&& 0x0C = b.gate &&& 0x0C := by
  have hopen : ((b.gate &&& 0x0C) ||| 0x03) &&& 0x0C = b.gate &&& 0x0C := by
    apply UInt8.eq_of_toBitVec_eq
    ext i hi
    simp
    interval_cases i <;> simp
  have hclosed : ((b.gate &&& 0x0C) ||| 0) &&& 0x0C = b.gate &&& 0x0C := by
    rw [UInt8.or_zero, UInt8.and_assoc, UInt8.and_self]
  cases a with
  | mk timer tone on =>
    match on with
    | none => rfl
    | some true => exact hopen
    | some false => exact hclosed

theorem toneOn_after (b : Board) (a : Asked) (hz : UInt32) (wires : UInt8) :
    toneOn (b.after a) hz wires = b.after { a with tone := some hz, on := some true } := by
  rw [toneOn_board, gate_after]
  refine congrArg (Board.mk · _) (funext fun i => ?_)
  cases i <;> rfl

theorem toneOff_after (b : Board) (a : Asked) (wires : UInt8) :
    toneOff (b.after a) wires = b.after { a with on := some false } := by
  rw [toneOff_board, gate_after]
  exact congrArg (Board.mk _) (UInt8.or_zero).symm

theorem beep_after (b : Board) (a : Asked) (hz ms : UInt32) (wires wires' : UInt8) :
    beep (b.after a) hz ms wires wires' =
      if Waits ms then .ok (b.after { a with tone := some hz, on := some false })
      else .error (b.after { a with tone := some hz, on := some true }) := by
  rw [beep, toneOn_after, toneOff_after]

/-- A call that comes back does to the board what it asks for. -/
theorem call_after (b : Board) (a : Asked) {call : PitCall} (h : call.Returns) :
    (b.after a).call call = .ok (b.after (a.call call)) := by
  cases call with
  | timerInit hz =>
    rw [Board.call, timerInit_board]
    refine congrArg Except.ok (congrArg (Board.mk · _) (funext fun i => ?_))
    cases i <;> rfl
  | toneOn hz wires => exact congrArg Except.ok (toneOn_after b a hz wires)
  | toneOff wires => exact congrArg Except.ok (toneOff_after b a wires)
  | beep hz ms wires wires' =>
    rw [Board.call, beep_after, if_pos (show Waits ms from h)]
    rfl

/-- One that does not was a beep, and leaves the speaker on. -/
theorem call_after_error (b : Board) (a : Asked) {call : PitCall} (h : ¬ call.Returns) :
    ∃ hz ms wires wires', call = .beep hz ms wires wires' ∧ ¬ Waits ms ∧
      (b.after a).call call = .error (b.after { a with tone := some hz, on := some true }) := by
  cases call with
  | timerInit | toneOn | toneOff => exact absurd trivial h
  | beep hz ms wires wires' =>
    refine ⟨hz, ms, wires, wires', rfl, h, ?_⟩
    rw [Board.call, beep_after, if_neg (show ¬ Waits ms from h)]

/-- What calls that come back ask for is what the board has become. -/
theorem run_after (b : Board) (a : Asked) {calls : List PitCall} (h : ∀ c ∈ calls, c.Returns) :
    (b.after a).run calls = .ok (b.after (calls.foldl Asked.call a)) := by
  induction calls generalizing a with
  | nil => rfl
  | cons call calls ih =>
    rw [Board.run, call_after b a (h call List.mem_cons_self)]
    exact ih _ fun c hc => h c (List.mem_cons_of_mem _ hc)

theorem run_append (b : Board) (calls more : List PitCall) :
    b.run (calls ++ more) = (b.run calls).bind fun b => b.run more := by
  induction calls generalizing b with
  | nil => rfl
  | cons call calls ih =>
    simp only [List.cons_append, Board.run]
    cases b.call call with
    | error b => rfl
    | ok b => exact ih b

/-- Calls come back one after the other up to the first that does not. -/
theorem returns_or_first (calls : List PitCall) :
    (∀ c ∈ calls, c.Returns) ∨ ∃ before call rest, calls = before ++ call :: rest ∧
      (∀ c ∈ before, c.Returns) ∧ ¬ call.Returns := by
  induction calls with
  | nil => exact Or.inl (by simp)
  | cons call calls ih =>
    by_cases hcall : call.Returns
    · rcases ih with hall | ⟨before, c, rest, rfl, hbefore, hc⟩
      · exact Or.inl (List.forall_mem_cons.mpr ⟨hcall, hall⟩)
      · exact Or.inr ⟨call :: before, c, rest, rfl, List.forall_mem_cons.mpr ⟨hcall, hbefore⟩, hc⟩
    · exact Or.inr ⟨[], call, calls, rfl, by simp, hcall⟩

theorem period_squareWave {d : UInt16} (h : d.toNat ≠ 0) : (squareWave d).period = d.toNat := by
  have hne : d ≠ 0 := fun h0 => h (UInt16.toNat_inj.mpr h0)
  exact if_neg hne

theorem reloadOf_ne_zero (hz : Nat) : reloadOf hz ≠ 0 := by
  unfold reloadOf
  split <;> omega

/-- The count is 1 for the frequencies above half the clock, and no other. -/
private theorem reloadOf_eq_one_iff (hz : Nat) : reloadOf hz = 1 ↔ 596591 < hz := by
  unfold reloadOf
  split
  next h0 => omega
  next h0 =>
    have hpos : 0 < hz := Nat.pos_of_ne_zero h0
    have hdiv : 1193182 / hz < 2 ↔ 596591 < hz := by
      rw [Nat.div_lt_iff_lt_mul hpos]
      omega
    omega

/-- **Timer and speaker do not disturb each other.** Whatever the chip was in the middle of
before a sequence of calls: if none of them is a beep whose wait overflows, channel 0 is a
square wave with the last frequency of the timer, channel 2 one with the last of the speaker,
channels nobody asked for are as they were, and the gate is open if the last call said so. The
first beep whose wait overflows stops the kernel with its tone on, and what was asked for
before is as it was. The other bits of the gate's port never change. The period is that of the
frequency, cut to what fits; above half the clock it is the 1 that a square wave cannot have. -/
theorem channels_after_calls (b : Board) (calls : List PitCall) :
    ((∀ c ∈ calls, c.Returns) ∧ b.run calls = .ok (b.after (asked calls)) ∨
      ∃ before hz ms wires wires' rest, calls = before ++ .beep hz ms wires wires' :: rest ∧
        (∀ c ∈ before, c.Returns) ∧ ¬ Waits ms ∧
        b.run calls =
          .error (b.after { asked before with tone := some hz, on := some true })) ∧
      (∀ a, (b.after a).gate &&& 0x0C = b.gate &&& 0x0C) ∧
      (∀ hz : UInt64, (squareWave (pitDivisor hz)).period = reloadOf hz.toNat) ∧
      (∀ hz : UInt32, (squareWave (pit2Divisor hz)).period = reloadOf hz.toNat) ∧
      ∀ hz, reloadOf hz = 1 ↔ 596591 < hz := by
  have hstart : b.after ⟨none, none, none⟩ = b := by
    refine congrArg (Board.mk · b.gate) (funext fun i => ?_)
    cases i <;> rfl
  refine ⟨?_, gate_after b, fun hz => ?_, fun hz => ?_, reloadOf_eq_one_iff⟩
  · rcases returns_or_first calls with hall | ⟨before, call, rest, rfl, hbefore, hcall⟩
    · have hrun := run_after b ⟨none, none, none⟩ hall
      rw [hstart] at hrun
      exact Or.inl ⟨hall, hrun⟩
    · have hrun := run_after b ⟨none, none, none⟩ hbefore
      rw [hstart] at hrun
      obtain ⟨hz, ms, wires, wires', rfl, hms, hstop⟩ := call_after_error b (asked before) hcall
      refine Or.inr ⟨before, hz, ms, wires, wires', rest, rfl, hbefore, hms, ?_⟩
      rw [run_append, hrun]
      simp only [Except.bind, Board.run]
      rw [show List.foldl Asked.call ⟨none, none, none⟩ before = asked before from rfl, hstop]
  · rw [period_squareWave, pitDivisor_toNat]
    rw [pitDivisor_toNat]
    exact reloadOf_ne_zero _
  · rw [period_squareWave, pit2Divisor_toNat]
    rw [pit2Divisor_toNat]
    exact reloadOf_ne_zero _

end LionOS.Drivers
