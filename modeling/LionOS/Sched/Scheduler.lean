import Mathlib.Data.List.Basic
import Mathlib.Data.List.InsertIdx
import Mathlib.Data.Nat.Basic
import Mathlib.Tactic.Ring

/-!
# The scheduler

The ring holds the real tasks and, once it is closed, the idle slot of the boot
context at index `real_tasks`. A timer interrupt only counts; `pump_ticks` turns a
non-zero count into one selection, and `run_pending_switch` performs it with
`context_switch`, which stores the running context's stack pointer in its slot and
resumes the target from the one it is given. Pointers are numbers, with null 0.
-/

namespace LionOS.Sched

/-- Ring slots, the idle one included. -/
def tasksCap : Nat := 4

/-- Scheduling state of a slot. -/
inductive TaskState where
  | ready
  | running
  | blocked
  deriving DecidableEq, Repr

/-- One schedulable unit. -/
structure Pcb where
  state : TaskState
  savedRsp : Nat
  deriving DecidableEq, Repr

/-- A ready slot without a saved stack pointer. -/
def Pcb.new : Pcb := ⟨.ready, 0⟩

/-- The architecture-free scheduler state. -/
structure Scheduler where
  tasks : List Pcb
  current : Nat
  switches : Nat
  started : Bool
  switchPending : Bool
  realTasks : Nat

namespace Scheduler

/-- An empty, stopped scheduler. -/
def new : Scheduler := ⟨[], 0, 0, false, false, 0⟩

/-- Whether a slot may be selected. -/
def selectable (p : Pcb) : Bool := p.state = .ready || p.state = .running

/-- Search the next `left` slots, from `step` slots behind the current one on. -/
def nextIndexFrom (tasks : List Pcb) (current : Nat) : (left step : Nat) → Option Nat
  | 0, _ => none
  | left + 1, step =>
    let i := (current + step) % tasks.length
    if selectable (tasks.getD i .new) then some i else nextIndexFrom tasks current left (step + 1)

/-- The next slot that may be selected, the current one last. -/
def nextIndex (tasks : List Pcb) (current : Nat) : Option Nat :=
  nextIndexFrom tasks current tasks.length 1

/-- Advance the selection and flag a switch. -/
def tick (s : Scheduler) : Scheduler × Bool :=
  if s.started then
    match nextIndex s.tasks s.current with
    | some i =>
      if i ≠ s.current then ({ s with current := i, switchPending := true }, true) else (s, false)
    | none => (s, false)
  else (s, false)

end Scheduler

/-- The scheduler and the statics beside it. -/
structure Kernel where
  sched : Scheduler
  currentId : Nat
  idleRsp : Nat
  taskFn : Option Nat
  schedOn : Bool
  pitKicks : Nat

/-- Where a context's stack pointer is kept. -/
inductive Slot where
  | idle
  | task (i : Nat)
  deriving DecidableEq, Repr

namespace Kernel

/-- The statics at boot. -/
def boot : Kernel := ⟨.new, 0, 0, none, false, 0⟩

/-- Spawn a task with entry `f`; `stack` is what `alloc_task_stack` returns. The function
is recorded even when the ring is full. -/
def spawn (k : Kernel) (f stack : Nat) : Kernel :=
  let k := { k with taskFn := some f }
  if tasksCap - 1 ≤ k.sched.realTasks then k
  else
    let tasks := k.sched.tasks.insertIdx k.sched.realTasks { Pcb.new with savedRsp := stack }
    let realTasks := k.sched.realTasks + 1
    if realTasks = 1 then
      { k with
        sched := { k.sched with tasks := tasks, realTasks := realTasks, started := true }
        schedOn := true
        currentId := realTasks }
    else { k with sched := { k.sched with tasks := tasks, realTasks := realTasks } }

/-- Close the ring with the idle slot. -/
def finish (k : Kernel) : Kernel :=
  if k.sched.realTasks = 0 then k
  else
    { k with
      sched := { k.sched with
        tasks := k.sched.tasks ++ [Pcb.new]
        current := k.sched.realTasks }
      currentId := k.sched.realTasks }

/-- The timer interrupt: count it, once tasks exist. The counter wraps. -/
def onTimerIrq (k : Kernel) : Kernel :=
  if k.schedOn then { k with pitKicks := (k.pitKicks + 1) % 2 ^ 64 } else k

/-- Turn pending timer interrupts into one selection. -/
def pumpTicks (k : Kernel) : Kernel :=
  let kicks := k.pitKicks
  let k := { k with pitKicks := 0 }
  if kicks = 0 then k
  else if k.sched.started then { k with sched := k.sched.tick.1 }
  else k

/-- The location of the stack pointer of slot `i`. -/
def slotOf (k : Kernel) (i : Nat) : Slot := if k.sched.realTasks ≤ i then .idle else .task i

/-- The stack pointer kept at a location. -/
def readSlot (k : Kernel) : Slot → Nat
  | .idle => k.idleRsp
  | .task i => (k.sched.tasks.getD i .new).savedRsp

/-- Store a stack pointer at a location. -/
def writeSlot (k : Kernel) (slot : Slot) (rsp : Nat) : Kernel :=
  match slot with
  | .idle => { k with idleRsp := rsp }
  | .task i =>
    { k with
      sched := { k.sched with
        tasks := k.sched.tasks.set i { k.sched.tasks.getD i .new with savedRsp := rsp } } }

/-- `run_pending_switch` up to its call of `context_switch`: the arguments of the call, if
it is made. -/
def runPendingSwitch (k : Kernel) : Kernel × Option (Slot × Nat) :=
  if !k.sched.started || !k.sched.switchPending then (k, none)
  else
    let target := k.sched.current
    let prev := k.currentId
    let targetSp := k.readSlot (k.slotOf target)
    let slot := k.slotOf prev
    ({ k with
        sched := { k.sched with switchPending := false, switches := k.sched.switches + 1 }
        currentId := target },
      some (slot, targetSp))

end Kernel

end LionOS.Sched
