import LionOS.Sched.Switching

/-!
# The boot context parks for good

`idle_loop` consumes the counted interrupts, performs the pending switch and calls `hlt`,
over and over, or so its text reads. `hlt` calls the assembly routine `lion_hlt`, which the
panic handler uses as well: it halts, and an interrupt that ends the halt returns to a jump
back to it. Nothing there returns to the loop.

The functions of the tasks do not call the scheduler.
-/

namespace LionOS.Sched

open Relation

/-- Where the boot context is. -/
inductive Pc where
  /-- Before one of the three calls of `idle_loop`. -/
  | pumpTicks
  | runPendingSwitch
  | hlt
  /-- Switched out by its call of `run_pending_switch`, while the tasks run. -/
  | away
  /-- Before the first instruction of `lion_hlt`, or halted by it. -/
  | lionHlt
  | halted
  /-- Before the second instruction of `lion_hlt`. -/
  | jmp
  deriving DecidableEq, Repr

/-- An interrupt returns to where it came from; a halt is over then. -/
def Pc.wake : Pc → Pc
  | .halted => .jmp
  | pc => pc

/-- The statics and the boot context. -/
structure Idling where
  kernel : Kernel
  pc : Pc

/-- `idle_loop` is entered. -/
def Idling.start (k : Kernel) : Idling := ⟨k, .pumpTicks⟩

/-- Where the boot context is after a switch: `run_pending_switch` returns to the loop once
the idle slot is resumed. -/
def Kernel.bootPc (k : Kernel) : Pc := if k.sched.realTasks ≤ k.currentId then .hlt else .away

/-- One step. A task calls `pump_ticks` and `run_pending_switch` in a loop of its own. -/
inductive IdleStep (s : Idling) : Idling → Prop
  | irq : IdleStep s ⟨s.kernel.onTimerIrq, s.pc.wake⟩
  | otherIrq : IdleStep s ⟨s.kernel, s.pc.wake⟩
  | pumpTicks (hp : s.pc = .pumpTicks) : IdleStep s ⟨s.kernel.pumpTicks, .runPendingSwitch⟩
  | stay {k : Kernel} (hp : s.pc = .runPendingSwitch)
      (hc : s.kernel.runPendingSwitch = (k, none)) : IdleStep s ⟨k, .hlt⟩
  | switch {k : Kernel} {slot : Slot} {targetSp rsp : Nat} (hp : s.pc = .runPendingSwitch)
      (hc : s.kernel.runPendingSwitch = (k, some (slot, targetSp))) :
      IdleStep s ⟨k.writeSlot slot rsp, k.bootPc⟩
  | hlt (hp : s.pc = .hlt) : IdleStep s ⟨s.kernel, .lionHlt⟩
  | lionHlt (hp : s.pc = .lionHlt) : IdleStep s ⟨s.kernel, .halted⟩
  | jmp (hp : s.pc = .jmp) : IdleStep s ⟨s.kernel, .lionHlt⟩
  | taskPump (hp : s.pc = .away) : IdleStep s ⟨s.kernel.pumpTicks, .away⟩
  | taskStay {k : Kernel} (hp : s.pc = .away) (hc : s.kernel.runPendingSwitch = (k, none)) :
      IdleStep s ⟨k, .away⟩
  | taskSwitch {k : Kernel} {slot : Slot} {targetSp rsp : Nat} (hp : s.pc = .away)
      (hc : s.kernel.runPendingSwitch = (k, some (slot, targetSp))) :
      IdleStep s ⟨k.writeSlot slot rsp, k.bootPc⟩

/-- The boot context can come to execute `pump_ticks`. -/
def CanPump (s : Idling) : Prop := ∃ s', ReflTransGen IdleStep s s' ∧ s'.pc = .pumpTicks

/-- In every state reachable in `idle_loop`, the boot context can come to execute
`pump_ticks`. -/
def NeverDeaf (k : Kernel) : Prop := ∀ s, ReflTransGen IdleStep (.start k) s → CanPump s

/-- The boot context runs and is done with the first two calls. -/
def Idling.Parked (s : Idling) : Prop :=
  s.pc = .hlt ∨ s.pc = .lionHlt ∨ s.pc = .halted ∨ s.pc = .jmp

theorem Pc.wake_eq_pumpTicks (pc : Pc) : pc.wake = .pumpTicks ↔ pc = .pumpTicks := by
  cases pc <;> decide

theorem Kernel.bootPc_ne (k : Kernel) : k.bootPc ≠ .pumpTicks := by
  unfold Kernel.bootPc
  split <;> decide

/-- No step of the boot context leads to its call of `pump_ticks`. -/
theorem IdleStep.pc_ne {s s' : Idling} (h : IdleStep s s') (hp : s.pc ≠ .pumpTicks) :
    s'.pc ≠ .pumpTicks := by
  cases h with
  | irq | otherIrq => exact mt s.pc.wake_eq_pumpTicks.mp hp
  | switch | taskSwitch => exact Kernel.bootPc_ne _
  | _ => simp

theorem pc_ne_of_run {s s' : Idling} (hp : s.pc ≠ .pumpTicks) (hrun : ReflTransGen IdleStep s s') :
    s'.pc ≠ .pumpTicks := by
  induction hrun with
  | refl => exact hp
  | tail _ hstep ih => exact hstep.pc_ne ih

/-- Once `pump_ticks` was called, it is not called again. -/
theorem not_canPump {s : Idling} (hp : s.pc ≠ .pumpTicks) : ¬ CanPump s := by
  rintro ⟨s', hrun, hp'⟩
  exact pc_ne_of_run hp hrun hp'

/-- Parked, the boot context stays parked, and a step at most counts an interrupt. -/
theorem Idling.Parked.step {s s' : Idling} (h : s.Parked) (hstep : IdleStep s s') :
    s'.Parked ∧ s'.kernel.sched = s.kernel.sched := by
  unfold Idling.Parked at h
  cases hstep with
  | irq =>
    refine ⟨?_, onTimerIrq_sched _⟩
    rcases h with h | h | h | h <;> simp [Idling.Parked, h, Pc.wake]
  | otherIrq =>
    refine ⟨?_, rfl⟩
    rcases h with h | h | h | h <;> simp [Idling.Parked, h, Pc.wake]
  | hlt | jmp => exact ⟨.inr (.inl rfl), rfl⟩
  | lionHlt => exact ⟨.inr (.inr (.inl rfl)), rfl⟩
  | pumpTicks hp | stay hp hc | switch hp hc | taskPump hp | taskStay hp hc | taskSwitch hp hc =>
    simp [hp] at h

/-- Parked, the ring does not turn any more, whatever interrupts arrive. -/
theorem Idling.Parked.run {s s' : Idling} (h : s.Parked) (hrun : ReflTransGen IdleStep s s') :
    s'.Parked ∧ s'.kernel.sched = s.kernel.sched := by
  induction hrun with
  | refl => exact ⟨h, rfl⟩
  | tail _ hstep ih =>
    obtain ⟨hparked, hsched⟩ := ih
    obtain ⟨hparked', hsched'⟩ := hparked.step hstep
    exact ⟨hparked', hsched'.trans hsched⟩

/-- **The idle loop goes deaf in its first iteration.** Whatever the statics are when it is
entered, some state is reached from which the boot context never executes `pump_ticks` again.
More exactly, it can do so only where its first call is still to come; and once it parks, no
interrupt is turned into a selection or a switch any more. -/
theorem idle_loop_deaf (k : Kernel) :
    ¬ NeverDeaf k ∧
      ∀ s, ReflTransGen IdleStep (.start k) s →
        (CanPump s ↔ s.pc = .pumpTicks) ∧
          (s.Parked → ∀ s', ReflTransGen IdleStep s s' → s'.kernel.sched = s.kernel.sched) := by
  constructor
  · intro hnever
    have hrun := ReflTransGen.single (@IdleStep.pumpTicks (.start k) rfl)
    exact not_canPump (by simp) (hnever _ hrun)
  · intro s _
    refine ⟨⟨fun hcan => ?_, fun hp => ⟨s, .refl, hp⟩⟩, fun hparked s' hrun => (hparked.run hrun).2⟩
    by_contra hp
    exact not_canPump hp hcan

/-- The ring of the boot test. -/
def bootRing : Kernel := (((Kernel.boot.spawn 1 0x2FC8).spawn 1 0x4FC8).spawn 1 0x6FC8).finish

/-- The boot context parks, and a timer interrupt is counted and never consumed. -/
theorem idle_loop_deaf_bootRing : ¬ NeverDeaf bootRing := by
  intro hnever
  have h₁ := ReflTransGen.single (@IdleStep.pumpTicks (.start bootRing) rfl)
  have h₂ := (h₁.tail (.stay rfl rfl)).tail (.hlt rfl)
  have h₃ := ((h₂.tail (.lionHlt rfl)).tail .irq).tail (.jmp rfl)
  exact not_canPump (by simp) (hnever _ h₃)

end LionOS.Sched
