import LionOS.Drivers.Mouse
import LionOS.Interrupts.Idt
import LionOS.Lib.Pic8259
import LionOS.Sched.Scheduler

/-!
# The interrupt controllers and the handlers

`init` sets the two controllers up, opens lines 0 and 1 at the first and line 12 at the
second, and turns interrupts on. Devices raise their lines at any time, also while the
controllers are being set up. A handler runs with interrupts off until its `iretq`; the
kernel's own code turns them on and off as it likes and does anything to the scheduler.

Line 12 comes in through line 2 of the first controller, and line 2 stays masked: the mouse
never interrupts. Timer and keyboard interrupts are all served, each once.
-/

namespace LionOS.Interrupts

open Lib.Pic8259

def pic1Cmd : UInt16 := 0x20
def pic1Data : UInt16 := 0x21
def pic2Cmd : UInt16 := 0xA0
def pic2Data : UInt16 := 0xA1

def pitCh0 : UInt16 := 0x40
def pitCtrl : UInt16 := 0x43

def pitClock : UInt64 := 1193182

/-- The reload value for `hz`. -/
def pitDivisor (hz : UInt64) : UInt16 :=
  if hz = 0 then 0xFFFF
  else (max 1 (min (pitClock / hz) 0xFFFF)).toUInt16

/-- What the code of interrupts does, one access after the other. -/
inductive Op where
  | outb (port : UInt16) (v : UInt8)
  /-- `INTERRUPT_READY.store(true)`. -/
  | picReady
  /-- `SER_HZ.store(hz)`. -/
  | serHz (hz : UInt64)
  /-- `TICKS.fetch_add(1)`. -/
  | tick
  /-- `sched::on_timer_irq`. -/
  | onTimerIrq
  /-- `LAST_SCAN.store` of the byte at port 0x60. -/
  | lastScan
  /-- `KEY_COUNT.fetch_add(1)`. -/
  | keyCount
  /-- `mouse::handle_byte` of the byte at port 0x60. -/
  | handleByte
  deriving DecidableEq

def ioWait : Op := .outb 0x80 0

def remap : List Op :=
  [.outb pic1Cmd 0x11, ioWait, .outb pic2Cmd 0x11, ioWait,
    .outb pic1Data 0x20, ioWait, .outb pic2Data 0x28, ioWait,
    .outb pic1Data 0x04, ioWait, .outb pic2Data 0x02, ioWait,
    .outb pic1Data 0x01, ioWait, .outb pic2Data 0x01, ioWait,
    .outb pic1Data 0b11111100, .outb pic2Data 0xFF, .picReady]

/-- `eoi`. -/
def eoi (irq : UInt8) : List Op :=
  (if 8 ≤ irq then [.outb pic2Cmd 0x20] else []) ++ [.outb pic1Cmd 0x20]

def timerInit (hz : UInt64) : List Op :=
  [.outb pitCtrl 0x36, .outb pitCh0 (pitDivisor hz &&& 0xFF).toUInt8,
    .outb pitCh0 (pitDivisor hz >>> 8).toUInt8, .serHz hz]

/-- `init` between the gates and `sti`. -/
def bringUp : List Op := remap ++ [.outb 0xA1 0xEF] ++ timerInit 100

def timerIsr : List Op := [.tick, .onTimerIrq] ++ eoi 0
def keyboardIsr : List Op := [.lastScan, .keyCount] ++ eoi 1
def mouseIsr : List Op := [.handleByte] ++ eoi 12

/-- The code behind a vector's gate. -/
def isrAt (vector : UInt8) : Option (List Op) :=
  if vector = 0x20 then some timerIsr
  else if vector = 0x21 then some keyboardIsr
  else if vector = 0x2C then some mouseIsr
  else none

/-- What the processor is in the middle of. -/
inductive Code where
  | bringUp (left : List Op)
  | kernel
  | isr (left : List Op)
  /-- There is no gate for the interrupt. -/
  | fault

/-- The controllers, the processor and the statics. -/
structure Machine where
  chips : Pair
  code : Code
  intFlag : Bool
  interruptReady : Bool
  serHz : UInt64
  ticks : UInt64
  lastScan : UInt64
  keyCount : UInt64
  mouse : Drivers.Mouse
  sched : Sched.Kernel
  /-- The vectors that the processor took, the last one in front. -/
  taken : List UInt8

/-- A device raises a line, the kernel's code sets the flag or works on the scheduler, or the
processor goes on with an interrupt; `data` is what port 0x60 would give it. -/
inductive Event where
  | raise (irq : Fin 16)
  | setFlag (on : Bool)
  | sched (k : Sched.Kernel)
  | cpu (data : UInt8)

namespace Machine

/-- The system in front of `init`, with the controllers as the firmware leaves them. -/
def boot (chips : Pair) (sched : Sched.Kernel) : Machine where
  chips := chips
  code := .bringUp bringUp
  intFlag := false
  interruptReady := false
  serHz := 0
  ticks := 0
  lastScan := 0
  keyCount := 0
  mouse := .initial
  sched := sched
  taken := []

def perform (s : Machine) (data : UInt8) : Op → Machine
  | .outb port v => { s with chips := s.chips.outb port v }
  | .picReady => { s with interruptReady := true }
  | .serHz hz => { s with serHz := hz }
  | .tick => { s with ticks := s.ticks + 1 }
  | .onTimerIrq => { s with sched := s.sched.onTimerIrq }
  | .lastScan => { s with lastScan := data.toUInt64 }
  | .keyCount => { s with keyCount := s.keyCount + 1 }
  | .handleByte => { s with mouse := s.mouse.handleByte data }

/-- The processor takes an interrupt between two instructions of the kernel. -/
def interrupt (s : Machine) : Machine :=
  match s.chips.acknowledge with
  | none => s
  | some (vector, chips) =>
    { s with
      chips := chips
      intFlag := false
      taken := vector :: s.taken
      code := match isrAt vector with
        | some ops => .isr ops
        | none => .fault }

def step (s : Machine) : Event → Machine
  | .raise irq => { s with chips := s.chips.raise irq }
  | .setFlag on =>
    match s.code with
    | .kernel => { s with intFlag := on }
    | _ => s
  | .sched k =>
    match s.code with
    | .kernel => { s with sched := k }
    | _ => s
  | .cpu data =>
    match s.code with
    | .bringUp (op :: left) => { s.perform data op with code := .bringUp left }
    | .bringUp [] => { s with code := .kernel, intFlag := true }
    | .isr (op :: left) => { s.perform data op with code := .isr left }
    | .isr [] => { s with code := .kernel, intFlag := true }
    | .kernel => if s.intFlag then s.interrupt else s
    | .fault => s

def run (s : Machine) (events : List Event) : Machine := events.foldl step s

end Machine

/-- An access as the controllers see it. -/
def Op.onChips : Op → Pair → Pair
  | .outb port v, c => c.outb port v
  | _, c => c

@[simp] theorem chips_perform (s : Machine) (data : UInt8) (op : Op) :
    (s.perform data op).chips = op.onChips s.chips := by
  cases op <;> rfl

theorem Op.settled_onChips (op : Op) {c d : Pair} (h : c.settled = d.settled) :
    (op.onChips c).settled = (op.onChips d).settled := by
  cases op with
  | outb port v => rw [onChips, onChips, Pair.settled_outb, h, ← Pair.settled_outb]
  | _ => exact h

/-- The controllers as `init` leaves them, with some lines of the first one in service. -/
def configured (serving : Fin 8 → Bool) : Pair where
  master :=
    { pending := fun _ => false
      inService := serving
      masked := fun i => (0b11111100 : UInt8).toNat.testBit i
      base := 0x20
      cascade := 0x04
      phase := .masks
      single := false
      needsMode := true }
  slave :=
    { pending := fun _ => false
      inService := fun _ => false
      masked := fun i => (0xEF : UInt8).toNat.testBit i
      base := 0x28
      cascade := 0x02
      phase := .masks
      single := false
      needsMode := true }

/-- Nothing is in service. -/
def none8 : Fin 8 → Bool := fun _ => false

theorem bringUp_onChips (c : Pair) :
    (bringUp.foldl (fun c op => op.onChips c) c).settled = configured none8 := rfl

/-- One line of the first controller is in service. -/
def only (i : Fin 8) : Fin 8 → Bool := Function.update none8 i true

section configured

variable {c d : Pair} {serving : Fin 8 → Bool} {i : Fin 8}

theorem settled_serve (h : c.settled = configured none8) (i : Fin 8) :
    Pair.settled { c with master := c.master.serve i } = configured (only i) := by
  have hserve : Pair.settled { c with master := c.master.serve i } =
      { c.settled with
        master := { c.settled.master with
          inService := Function.update c.settled.master.inService i true } } := rfl
  rw [hserve, h]
  rfl

/-- The end of the interrupt that the only line in service caused. -/
theorem settled_eoi (h : c.settled = configured (only i)) :
    (c.outb pic1Cmd 0x20).settled = configured none8 := by
  have hserve : (configured (only i)).master = ((configured none8).master).serve i := by
    have hpending : Function.update none8 i false = none8 := Function.update_eq_self i none8
    simp only [configured, Lib.Pic8259.Pic.serve, only]
    exact congrArg (fun f => Lib.Pic8259.Pic.mk f _ _ _ _ _ _ _) hpending.symm
  have heoi : (configured (only i)).outb pic1Cmd 0x20 =
      { configured (only i) with master := (configured (only i)).master.endOfInterrupt } := rfl
  rw [Pair.settled_outb, h, heoi, hserve,
    Lib.Pic8259.Pic.endOfInterrupt_serve fun j _ => rfl]
  rfl

private theorem open_lines (i : Fin 8) :
    (!(0b11111100 : UInt8).toNat.testBit i) = decide (i < 2) := by
  revert i
  decide

/-- With the masks of `init` the processor is offered the timer, or else the keyboard, or
nothing. -/
theorem acknowledge_configured (h : c.settled = configured none8) :
    c.acknowledge =
      if c.pending 0 then some (0x20, { c with master := c.master.serve 0 })
      else if c.pending 1 then some (0x21, { c with master := c.master.serve 1 })
      else none := by
  have hmaster : c.master.settled = (configured none8).master := congrArg (·.master) h
  have hmask : c.master.masked 2 = true := congrFun (congrArg (·.masked) hmaster) 2
  have hbase : c.master.base = 0x20 := congrArg (·.base) hmaster
  have hidle : ∀ j, c.master.inService j = false :=
    congrFun (congrArg (·.inService) hmaster)
  have hopen : (fun i => c.master.pending i && !c.master.masked i) =
      fun i => c.master.pending i && decide (i < 2) := by
    funext i
    rw [← open_lines i]
    exact congrArg (fun b => c.master.pending i && !b) (congrFun (congrArg (·.masked) hmaster) i)
  rw [Pair.acknowledge_of_masked hmask, Lib.Pic8259.Pic.request_idle hidle, hopen, hbase]
  by_cases h0 : c.pending 0 = true
  · have hfirst : highest (fun i => c.master.pending i && decide (i < 2)) = some 0 :=
      highest_of_first (Bool.and_eq_true _ _ ▸ ⟨h0, rfl⟩) fun j hj => absurd hj (Fin.not_lt_zero j)
    rw [if_pos h0, hfirst]
    rfl
  rw [if_neg h0]
  by_cases h1 : c.pending 1 = true
  · have hfirst : highest (fun i => c.master.pending i && decide (i < 2)) = some 1 := by
      refine highest_of_first (Bool.and_eq_true _ _ ▸ ⟨h1, rfl⟩) fun j hj => ?_
      obtain rfl : j = 0 := by omega
      exact Bool.and_eq_false_imp.mpr fun h => absurd h h0
    rw [if_pos h1, hfirst]
    rfl
  · have hnone : highest (fun i => c.master.pending i && decide (i < 2)) = none := by
      refine highest_of_none fun i => ?_
      by_cases hi : i < 2
      · have hcases : i = 0 ∨ i = 1 := by omega
        rcases hcases with rfl | rfl
        · exact Bool.and_eq_false_imp.mpr fun h => absurd h h0
        · exact Bool.and_eq_false_imp.mpr fun h => absurd h h1
      · simp [hi]
    rw [if_neg h1, hnone]
    rfl

end configured

/-- Behind the vectors of the controllers there is code for those that have a gate. -/
theorem isrAt_isSome_iff (h : Handlers) {vector : UInt8} (hv : 0x20 ≤ vector) :
    (isrAt vector).isSome ↔ (lastGate vector h.gates).present = true := by
  have hne : ∀ v < (0x20 : UInt8), v ≠ vector := fun v hlt heq =>
    absurd hv (UInt8.not_le.mpr (heq ▸ hlt))
  have hgates : lastGate vector h.gates =
      if 0x2C = vector then .interrupt h.mouseIsr 0
      else if 0x21 = vector then .interrupt h.keyboardIsr 0
      else if 0x20 = vector then .interrupt h.timerIsr 0
      else .absent := by
    simp [lastGate, Handlers.gates, Handlers.idtInit, hne 0 (by decide), hne 0x06 (by decide),
      hne 0x08 (by decide), hne 0x0D (by decide), hne 0x0E (by decide)]
  rw [hgates]
  by_cases h0 : vector = 0x20
  · subst h0
    exact ⟨fun _ => rfl, fun _ => rfl⟩
  by_cases h1 : vector = 0x21
  · subst h1
    exact ⟨fun _ => rfl, fun _ => rfl⟩
  by_cases h2 : vector = 0x2C
  · subst h2
    exact ⟨fun _ => rfl, fun _ => rfl⟩
  · simp [isrAt, h0, h1, h2, Ne.symm h0, Ne.symm h1, Ne.symm h2, Gate.absent]

end LionOS.Interrupts
