import LionOS.Sched.Scheduler
import Mathlib.Data.List.GetD
import Mathlib.Logic.Relation
import Mathlib.Tactic.Cases

/-!
# Saved contexts are resumed once and never stale

Tasks are spawned and the ring is closed; from then on some context executes
`pump_ticks` and then `run_pending_switch`, over and over: a context that is resumed
continues behind its own call of `run_pending_switch`, and a fresh one enters its
loop. Timer interrupts come at any moment. Every call of `context_switch` is
recorded with the stack pointer it stores.
-/

namespace LionOS.Sched

open Relation

/-- One call of `context_switch`, made by slot `running` to resume slot `target`. -/
structure SwitchRecord where
  running : Nat
  target : Nat
  slot : Slot
  targetSp : Nat
  /-- The stack pointer stored for the running context. -/
  stored : Nat

/-- What the code executes next, interrupts aside. -/
inductive Phase where
  | boot
  | pump
  | run
  deriving DecidableEq

/-- The kernel, the synthetic frames of the accepted tasks and the calls of
`context_switch` so far, latest first. -/
structure World where
  kernel : Kernel
  phase : Phase
  frames : List Nat
  log : List SwitchRecord

/-- Nothing has been spawned. -/
def World.start : World := ⟨.boot, .boot, [], []⟩

/-- What can happen: a timer interrupt, a call of `spawn` that accepts or refuses the function,
one of `finish`, `pump_ticks` or `run_pending_switch`, and the switch with the kernel as
`run_pending_switch` leaves it. -/
inductive Event where
  | irq
  | spawn (f : Nat)
  | refused (f : Nat)
  | finish
  | pump
  | stay
  | switch (k : Kernel)

/-- One event. Stack pointers that are allocated or stored are not null. -/
inductive Occurs (w : World) : Event → World → Prop
  | irq : Occurs w .irq { w with kernel := w.kernel.onTimerIrq }
  | spawn {f stack : Nat} (hp : w.phase = .boot) (hs : stack ≠ 0)
      (hfree : w.kernel.sched.realTasks < tasksCap - 1) :
      Occurs w (.spawn f)
        { w with kernel := w.kernel.spawn f stack, frames := w.frames ++ [stack] }
  | refused {f stack : Nat} (hp : w.phase = .boot)
      (hfull : tasksCap - 1 ≤ w.kernel.sched.realTasks) :
      Occurs w (.refused f) { w with kernel := w.kernel.spawn f stack }
  | finish (hp : w.phase = .boot) :
      Occurs w .finish { w with kernel := w.kernel.finish, phase := .pump }
  | pump (hp : w.phase = .pump) :
      Occurs w .pump { w with kernel := w.kernel.pumpTicks, phase := .run }
  | stay {k : Kernel} (hp : w.phase = .run) (hc : w.kernel.runPendingSwitch = (k, none)) :
      Occurs w .stay { w with kernel := k, phase := .pump }
  | switch {k : Kernel} {slot : Slot} {targetSp rsp : Nat} (hp : w.phase = .run)
      (hc : w.kernel.runPendingSwitch = (k, some (slot, targetSp))) (hr : rsp ≠ 0) :
      Occurs w (.switch k) { w with
        kernel := k.writeSlot slot rsp
        phase := .pump
        log := ⟨w.kernel.currentId, k.currentId, slot, targetSp, rsp⟩ :: w.log }

/-- Some event takes `w` to `w'`. -/
def Step (w w' : World) : Prop := ∃ e, Occurs w e w'

/-- The stack pointer stored when slot `i` was last switched out. -/
def lastStored (log : List SwitchRecord) (i : Nat) : Option Nat :=
  (log.find? fun r => r.running = i).map SwitchRecord.stored

/-- The slot that runs after the recorded switches; the boot context runs first. -/
def runningAfter (n : Nat) : List SwitchRecord → Nat
  | [] => n
  | r :: _ => r.target

/-- What a call of `context_switch` must satisfy, given the calls before it: the running
slot saves itself and resumes another one, from the stack pointer that one last
stored or, if it never ran, from its synthetic frame. -/
structure Faithful (n : Nat) (frames : List Nat) (r : SwitchRecord) (earlier : List SwitchRecord) :
    Prop where
  running_eq : r.running = runningAfter n earlier
  target_ne : r.target ≠ r.running
  slot_eq : r.slot = if n ≤ r.running then .idle else .task r.running
  targetSp_ne : r.targetSp ≠ 0
  targetSp_eq : some r.targetSp = lastStored earlier r.target ∨
    lastStored earlier r.target = none ∧ frames[r.target]? = some r.targetSp

/-- All recorded calls are faithful. -/
def AllFaithful (n : Nat) (frames : List Nat) : List SwitchRecord → Prop
  | [] => True
  | r :: earlier => Faithful n frames r earlier ∧ AllFaithful n frames earlier

/-- The stack pointer a slot can be resumed from: the last one stored, or the synthetic
frame. -/
def resumeSp (frames : List Nat) (log : List SwitchRecord) (i : Nat) : Option Nat :=
  (lastStored log i).or frames[i]?

/-- The invariant before the ring is closed. -/
structure BootInv (w : World) : Prop where
  log_nil : w.log = []
  tasks_eq : w.kernel.sched.tasks = w.frames.map fun f => ⟨.ready, f⟩
  realTasks_eq : w.kernel.sched.realTasks = w.frames.length
  frames_ne : ∀ f ∈ w.frames, f ≠ 0
  pending : w.kernel.sched.switchPending = false
  started : w.kernel.sched.started = true → 0 < w.frames.length
  fresh : w.frames.length = 0 → w.kernel.currentId = w.kernel.sched.current

/-- The invariant of the closed ring. -/
structure RingInv (w : World) : Prop where
  realTasks_eq : w.kernel.sched.realTasks = w.frames.length
  ring : w.kernel.sched.started = true → w.kernel.sched.tasks.length = w.frames.length + 1
  stopped : w.kernel.sched.started = false → w.kernel.sched.switchPending = false
  /-- `CURRENT_ID` is the slot that really runs. -/
  running : w.kernel.sched.started = true →
    w.kernel.currentId = runningAfter w.frames.length w.log
  bounds : w.kernel.sched.started = true →
    w.kernel.sched.current ≤ w.frames.length ∧ w.kernel.currentId ≤ w.frames.length
  pump : w.phase = .pump → w.kernel.sched.switchPending = false
  settled : w.kernel.sched.switchPending = false → w.kernel.currentId = w.kernel.sched.current
  pending : w.kernel.sched.switchPending = true → w.kernel.sched.current ≠ w.kernel.currentId
  /-- Every slot that does not run keeps the stack pointer it is to be resumed from. -/
  saved : w.kernel.sched.started = true → ∀ i ≤ w.frames.length, i ≠ w.kernel.currentId →
    resumeSp w.frames w.log i = some (w.kernel.readSlot (w.kernel.slotOf i)) ∧
      w.kernel.readSlot (w.kernel.slotOf i) ≠ 0
  faithful : AllFaithful w.frames.length w.frames w.log

/-- The invariant of every run. -/
def Inv (w : World) : Prop := if w.phase = .boot then BootInv w else RingInv w

/-- A selected slot is a slot of the ring. -/
theorem nextIndexFrom_lt {tasks : List Pcb} {current left step i : Nat} (hpos : 0 < tasks.length)
    (h : Scheduler.nextIndexFrom tasks current left step = some i) : i < tasks.length := by
  induction left generalizing step with
  | zero => simp [Scheduler.nextIndexFrom] at h
  | succ left ih =>
    simp only [Scheduler.nextIndexFrom] at h
    split at h
    · obtain rfl := Option.some.inj h
      exact Nat.mod_lt _ hpos
    · exact ih h

private theorem nextIndex_lt {tasks : List Pcb} {current i : Nat}
    (h : Scheduler.nextIndex tasks current = some i) : i < tasks.length := by
  cases tasks with
  | nil => simp [Scheduler.nextIndex, Scheduler.nextIndexFrom] at h
  | cons p tasks => exact nextIndexFrom_lt (by simp) h

/-- What `pump_ticks` does: it clears the count, and it may select another slot. -/
theorem pumpTicks_cases (k : Kernel) :
    k.pumpTicks = { k with pitKicks := 0 } ∨
      ∃ i, k.sched.started = true ∧ i < k.sched.tasks.length ∧ i ≠ k.sched.current ∧
        k.pumpTicks = { k with
          pitKicks := 0
          sched := { k.sched with current := i, switchPending := true } } := by
  by_cases hk : k.pitKicks = 0
  · left
    simp [Kernel.pumpTicks, hk]
  · by_cases hs : k.sched.started = true
    · cases hn : Scheduler.nextIndex k.sched.tasks k.sched.current with
      | none =>
        left
        simp [Kernel.pumpTicks, hk, hs, Scheduler.tick, hn]
      | some i =>
        by_cases hi : i = k.sched.current
        · left
          simp [Kernel.pumpTicks, hk, hs, Scheduler.tick, hn, hi]
        · right
          refine ⟨i, hs, nextIndex_lt hn, hi, ?_⟩
          simp [Kernel.pumpTicks, hk, hs, Scheduler.tick, hn, hi]
    · left
      simp [Kernel.pumpTicks, hk, hs]

/-- What `run_pending_switch` does: nothing without a pending switch, else it resumes the
selected slot. -/
theorem runPendingSwitch_cases (k : Kernel) :
    (k.sched.started = false ∨ k.sched.switchPending = false) ∧ k.runPendingSwitch = (k, none) ∨
      k.sched.started = true ∧ k.sched.switchPending = true ∧
        k.runPendingSwitch =
          ({ k with
              sched := { k.sched with switchPending := false, switches := k.sched.switches + 1 }
              currentId := k.sched.current },
            some (k.slotOf k.currentId, k.readSlot (k.slotOf k.sched.current))) := by
  cases hs : k.sched.started with
  | false => simp [Kernel.runPendingSwitch, hs]
  | true =>
    cases hp : k.sched.switchPending with
    | false => simp [Kernel.runPendingSwitch, hs, hp]
    | true => simp [Kernel.runPendingSwitch, hs, hp]

/-- What is kept where does not depend on the rest of the statics. -/
theorem readSlot_congr {k k' : Kernel} (ht : k'.sched.tasks = k.sched.tasks)
    (hn : k'.sched.realTasks = k.sched.realTasks) (hi : k'.idleRsp = k.idleRsp) (i : Nat) :
    k'.readSlot (k'.slotOf i) = k.readSlot (k.slotOf i) := by
  simp only [Kernel.slotOf, hn]
  split
  · exact hi
  · simp only [Kernel.readSlot, ht]

/-- Storing a stack pointer changes what is kept for its slot only. -/
theorem readSlot_writeSlot {k : Kernel} {i j : Nat} (rsp : Nat)
    (hlen : k.sched.tasks.length = k.sched.realTasks + 1) (hi : i ≤ k.sched.realTasks)
    (hj : j ≤ k.sched.realTasks) :
    (k.writeSlot (k.slotOf j) rsp).readSlot ((k.writeSlot (k.slotOf j) rsp).slotOf i) =
      if i = j then rsp else k.readSlot (k.slotOf i) := by
  by_cases hj' : k.sched.realTasks ≤ j
  · have hj : j = k.sched.realTasks := by omega
    by_cases hi' : k.sched.realTasks ≤ i
    · have hij : i = j := by omega
      simp [Kernel.slotOf, Kernel.writeSlot, Kernel.readSlot, hj', hij]
    · have hij : i ≠ j := by omega
      simp [Kernel.slotOf, Kernel.writeSlot, Kernel.readSlot, hj', hi', hij]
  · by_cases hi' : k.sched.realTasks ≤ i
    · have hij : i ≠ j := by omega
      simp [Kernel.slotOf, Kernel.writeSlot, Kernel.readSlot, hj', hi', hij]
    · have hlt : j < k.sched.tasks.length := by omega
      by_cases hij : i = j
      · subst hij
        simp [Kernel.slotOf, Kernel.writeSlot, Kernel.readSlot, hj', hlt]
      · simp [Kernel.slotOf, Kernel.writeSlot, Kernel.readSlot, hj', hi', hij,
          List.getElem?_set_ne (Ne.symm hij)]

/-- A refused task changes nothing but the recorded function. -/
theorem spawn_of_full {k : Kernel} (f stack : Nat) (h : tasksCap - 1 ≤ k.sched.realTasks) :
    k.spawn f stack = { k with taskFn := some f } :=
  if_pos h

/-- The idle slot is appended and selected. -/
theorem finish_of_ne {k : Kernel} (h : k.sched.realTasks ≠ 0) :
    k.finish = { k with
      sched := { k.sched with
        tasks := k.sched.tasks ++ [Pcb.new]
        current := k.sched.realTasks }
      currentId := k.sched.realTasks } :=
  if_neg h

/-- The stack pointer a slot is resumed from after one more switch. -/
theorem resumeSp_cons (frames : List Nat) (r : SwitchRecord) (log : List SwitchRecord) (i : Nat) :
    resumeSp frames (r :: log) i =
      if r.running = i then some r.stored else resumeSp frames log i := by
  by_cases h : r.running = i
  · simp [resumeSp, lastStored, h]
  · simp [resumeSp, lastStored, h]

/-- A slot is resumed from what it last stored, or else from its synthetic frame. -/
theorem resumeSp_eq_some {frames : List Nat} {log : List SwitchRecord} {i sp : Nat}
    (h : resumeSp frames log i = some sp) :
    some sp = lastStored log i ∨ lastStored log i = none ∧ frames[i]? = some sp := by
  unfold resumeSp at h
  cases hl : lastStored log i with
  | none =>
    rw [hl, Option.none_or] at h
    exact Or.inr ⟨rfl, h⟩
  | some rsp =>
    rw [hl, Option.some_or] at h
    exact Or.inl h.symm

theorem AllFaithful.of_append {n : Nat} {frames : List Nat} {l earlier : List SwitchRecord}
    {r : SwitchRecord} (h : AllFaithful n frames (l ++ r :: earlier)) :
    Faithful n frames r earlier := by
  induction l with
  | nil => exact h.1
  | cons q l ih => exact ih h.2

/-! ## One event keeps the invariant -/

@[simp] theorem onTimerIrq_sched (k : Kernel) : k.onTimerIrq.sched = k.sched := by
  unfold Kernel.onTimerIrq
  split <;> rfl

@[simp] theorem onTimerIrq_currentId (k : Kernel) : k.onTimerIrq.currentId = k.currentId := by
  unfold Kernel.onTimerIrq
  split <;> rfl

@[simp] theorem onTimerIrq_idleRsp (k : Kernel) : k.onTimerIrq.idleRsp = k.idleRsp := by
  unfold Kernel.onTimerIrq
  split <;> rfl

theorem BootInv.irq {w : World} (h : BootInv w) :
    BootInv { w with kernel := w.kernel.onTimerIrq } := by
  constructor
  · exact h.log_nil
  · simpa using h.tasks_eq
  · simpa using h.realTasks_eq
  · exact h.frames_ne
  · simpa using h.pending
  · simpa using h.started
  · simpa using h.fresh

theorem RingInv.irq {w : World} (h : RingInv w) :
    RingInv { w with kernel := w.kernel.onTimerIrq } := by
  have hread := @readSlot_congr w.kernel w.kernel.onTimerIrq (by simp) (by simp) (by simp)
  constructor
  · simpa using h.realTasks_eq
  · simpa using h.ring
  · simpa using h.stopped
  · simpa using h.running
  · simpa using h.bounds
  · simpa using h.pump
  · simpa using h.settled
  · simpa using h.pending
  · simpa [hread] using h.saved
  · exact h.faithful

/-- An accepted task joins the ring with its synthetic frame. -/
theorem BootInv.spawn {w : World} (h : BootInv w) {f stack : Nat} (hs : stack ≠ 0)
    (hfree : w.kernel.sched.realTasks < tasksCap - 1) :
    BootInv { w with kernel := w.kernel.spawn f stack, frames := w.frames ++ [stack] } := by
  have hnot : ¬ 3 ≤ w.kernel.sched.realTasks := by
    simp only [tasksCap] at hfree
    omega
  have htasks : w.kernel.sched.tasks.insertIdx w.kernel.sched.realTasks ⟨.ready, stack⟩ =
      (w.frames ++ [stack]).map fun f => ⟨.ready, f⟩ := by
    have hlen : w.kernel.sched.realTasks = (w.frames.map fun f => (⟨.ready, f⟩ : Pcb)).length := by
      rw [List.length_map, h.realTasks_eq]
    rw [h.tasks_eq, hlen, List.insertIdx_length_self]
    simp
  have hsched : (w.kernel.spawn f stack).sched.tasks =
      (w.frames ++ [stack]).map (fun f => ⟨.ready, f⟩) ∧
      (w.kernel.spawn f stack).sched.realTasks = w.frames.length + 1 ∧
      (w.kernel.spawn f stack).sched.switchPending = false := by
    rw [← htasks]
    by_cases h1 : w.kernel.sched.realTasks = 0
    · simp [Kernel.spawn, tasksCap, h1, Pcb.new, h.pending, ← h.realTasks_eq]
    · simp [Kernel.spawn, tasksCap, hnot, h1, Pcb.new, h.pending, ← h.realTasks_eq]
  constructor
  · exact h.log_nil
  · exact hsched.1
  · simpa using hsched.2.1
  · intro g hg
    rcases List.mem_append.mp hg with hg | hg
    · exact h.frames_ne g hg
    · rw [List.mem_singleton.mp hg]
      exact hs
  · exact hsched.2.2
  · simp
  · simp

theorem BootInv.refused {w : World} (h : BootInv w) {f stack : Nat}
    (hfull : tasksCap - 1 ≤ w.kernel.sched.realTasks) :
    BootInv { w with kernel := w.kernel.spawn f stack } := by
  rw [spawn_of_full f stack hfull]
  exact ⟨h.log_nil, h.tasks_eq, h.realTasks_eq, h.frames_ne, h.pending, h.started, h.fresh⟩

/-- Closing the ring establishes its invariant. -/
theorem BootInv.finish {w : World} (h : BootInv w) :
    RingInv { w with kernel := w.kernel.finish, phase := .pump } := by
  by_cases hn : w.kernel.sched.realTasks = 0
  · have hk : w.kernel.finish = w.kernel := by simp [Kernel.finish, hn]
    have hlen : w.frames.length = 0 := by rw [← h.realTasks_eq, hn]
    have hstop : w.kernel.sched.started = false := by
      cases hs : w.kernel.sched.started with
      | false => rfl
      | true =>
        have := h.started hs
        omega
    rw [hk]
    constructor <;> simp [hstop, h.pending, h.realTasks_eq, h.fresh hlen, h.log_nil, AllFaithful]
  · rw [finish_of_ne hn]
    constructor
    · exact h.realTasks_eq
    · simp [h.tasks_eq]
    · exact fun _ => h.pending
    · simp [h.log_nil, runningAfter, h.realTasks_eq]
    · simp [h.realTasks_eq]
    · exact fun _ => h.pending
    · simp
    · simp [h.pending]
    · intro _ i hi hne
      have hlt : i < w.frames.length := by
        simp only [h.realTasks_eq] at hi hne
        omega
      have hsaved : (((w.kernel.sched.tasks ++ [Pcb.new]).getD i .new)).savedRsp = w.frames[i] := by
        rw [h.tasks_eq, List.getD_append _ _ _ _ (by simpa using hlt)]
        simp [List.getD_eq_getElem?_getD, hlt]
      simp only [Kernel.slotOf, Kernel.readSlot, h.realTasks_eq, Nat.not_le.mpr hlt, if_false,
        hsaved, h.log_nil]
      constructor
      · simp [resumeSp, lastStored, hlt]
      · exact h.frames_ne _ (List.getElem_mem hlt)
    · simp [h.log_nil, AllFaithful]

/-- `pump_ticks` may select a slot that does not run. -/
theorem RingInv.pumpTicks {w : World} (h : RingInv w) (hp : w.phase = .pump) :
    RingInv { w with kernel := w.kernel.pumpTicks, phase := .run } := by
  have hidle := h.pump hp
  have hcur := h.settled hidle
  rcases pumpTicks_cases w.kernel with hk | ⟨i, hs, hi, hne, hk⟩
  · rw [hk]
    have hread := @readSlot_congr w.kernel { w.kernel with pitKicks := 0 } rfl rfl rfl
    refine ⟨h.realTasks_eq, h.ring, h.stopped, h.running, h.bounds, by simp, h.settled, h.pending,
      ?_, h.faithful⟩
    simpa [hread] using h.saved
  · rw [hk]
    have hread := @readSlot_congr w.kernel
      { w.kernel with
        pitKicks := 0
        sched := { w.kernel.sched with current := i, switchPending := true } } rfl rfl rfl
    refine ⟨h.realTasks_eq, h.ring, by simp [hs], h.running, ?_, by simp, by simp, ?_, ?_,
      h.faithful⟩
    · intro _
      have hlen := h.ring hs
      exact ⟨by simp only; omega, (h.bounds hs).2⟩
    · intro _
      simpa [hcur] using hne
    · simpa [hread] using h.saved

/-- Without a pending switch nothing changes. -/
theorem RingInv.stay {w : World} {k : Kernel} (h : RingInv w)
    (hc : w.kernel.runPendingSwitch = (k, none)) :
    RingInv { w with kernel := k, phase := .pump } := by
  rcases runPendingSwitch_cases w.kernel with ⟨hcond, hk⟩ | ⟨-, -, hk⟩
  · obtain ⟨rfl, -⟩ := Prod.mk.inj (hc.symm.trans hk)
    have hidle : w.kernel.sched.switchPending = false := by
      rcases hcond with hs | hp
      · exact h.stopped hs
      · exact hp
    exact ⟨h.realTasks_eq, h.ring, h.stopped, h.running, h.bounds, fun _ => hidle, h.settled,
      h.pending, h.saved, h.faithful⟩
  · have := hc.symm.trans hk
    simp at this

@[simp] theorem writeSlot_currentId (k : Kernel) (slot : Slot) (rsp : Nat) :
    (k.writeSlot slot rsp).currentId = k.currentId := by
  cases slot <;> rfl

@[simp] theorem writeSlot_current (k : Kernel) (slot : Slot) (rsp : Nat) :
    (k.writeSlot slot rsp).sched.current = k.sched.current := by
  cases slot <;> rfl

@[simp] theorem writeSlot_started (k : Kernel) (slot : Slot) (rsp : Nat) :
    (k.writeSlot slot rsp).sched.started = k.sched.started := by
  cases slot <;> rfl

@[simp] theorem writeSlot_switchPending (k : Kernel) (slot : Slot) (rsp : Nat) :
    (k.writeSlot slot rsp).sched.switchPending = k.sched.switchPending := by
  cases slot <;> rfl

@[simp] theorem writeSlot_realTasks (k : Kernel) (slot : Slot) (rsp : Nat) :
    (k.writeSlot slot rsp).sched.realTasks = k.sched.realTasks := by
  cases slot <;> rfl

@[simp] theorem writeSlot_length (k : Kernel) (slot : Slot) (rsp : Nat) :
    (k.writeSlot slot rsp).sched.tasks.length = k.sched.tasks.length := by
  cases slot <;> simp [Kernel.writeSlot]

/-- A switch is faithful, and the slot switched out keeps what was stored for it. -/
theorem RingInv.switch {w : World} {k : Kernel} {slot : Slot} {targetSp rsp : Nat} (h : RingInv w)
    (hc : w.kernel.runPendingSwitch = (k, some (slot, targetSp))) (hr : rsp ≠ 0) :
    RingInv { w with
      kernel := k.writeSlot slot rsp
      phase := .pump
      log := ⟨w.kernel.currentId, k.currentId, slot, targetSp, rsp⟩ :: w.log } := by
  rcases runPendingSwitch_cases w.kernel with ⟨-, hk⟩ | ⟨hs, hpend, hk⟩
  · have := hc.symm.trans hk
    simp at this
  obtain ⟨hk, hcall⟩ := Prod.mk.inj (hc.symm.trans hk)
  obtain ⟨hslot, hsp⟩ := Prod.mk.inj (Option.some.inj hcall)
  have hsched : k.sched.tasks = w.kernel.sched.tasks ∧
      k.sched.realTasks = w.kernel.sched.realTasks ∧
      k.sched.started = true ∧ k.sched.switchPending = false ∧
      k.sched.current = w.kernel.sched.current ∧ k.currentId = w.kernel.sched.current ∧
      k.idleRsp = w.kernel.idleRsp := by
    rw [hk]
    exact ⟨rfl, rfl, hs, rfl, rfl, rfl, rfl⟩
  obtain ⟨htasks, hreal, hstart, hidle, hcur, hid, hrsp⟩ := hsched
  have hread := readSlot_congr htasks hreal hrsp
  have hslot' : slot = k.slotOf w.kernel.currentId := by
    rw [hslot, Kernel.slotOf, Kernel.slotOf, hreal]
  obtain ⟨hb, hb'⟩ := h.bounds hs
  have hne := h.pending hpend
  have hn : k.sched.realTasks = w.frames.length := hreal.trans h.realTasks_eq
  have hlen : k.sched.tasks.length = k.sched.realTasks + 1 := by
    rw [htasks, h.ring hs, hn]
  obtain ⟨hresume, hnonzero⟩ := h.saved hs w.kernel.sched.current hb hne
  constructor
  · simpa using hn
  · intro _
    simp only [writeSlot_length, hlen, hn]
  · simp [hidle]
  · simp [runningAfter]
  · intro _
    simpa [hcur, hid] using hb
  · simp [hidle]
  · simp [hid, hcur]
  · simp [hidle]
  · intro _ i hi hine
    have hi' : i ≤ w.frames.length := hi
    simp only [writeSlot_currentId, hid] at hine ⊢
    rw [hslot', readSlot_writeSlot rsp hlen (by omega) (by omega), resumeSp_cons]
    by_cases hrun : i = w.kernel.currentId
    · simp [hrun, hr]
    · rw [if_neg (Ne.symm hrun), if_neg hrun, hread]
      exact h.saved hs i hi hrun
  · refine ⟨⟨h.running hs, ?_, ?_, ?_, ?_⟩, h.faithful⟩
    · simpa [hid] using hne
    · rw [hslot, Kernel.slotOf, h.realTasks_eq]
    · rw [hsp]
      exact hnonzero
    · rw [hid, hsp]
      exact resumeSp_eq_some hresume

/-! ## Runs -/

/-- One event keeps the invariant. -/
theorem Inv.step {w w' : World} (h : Inv w) (hstep : Step w w') : Inv w' := by
  unfold Inv at h
  obtain ⟨e, hstep⟩ := hstep
  cases hstep with
  | irq =>
    unfold Inv
    split at h
    next hp => rw [if_pos hp]; exact h.irq
    next hp => rw [if_neg hp]; exact h.irq
  | spawn hp hs hfree =>
    rw [if_pos hp] at h
    exact (if_pos hp).mpr (h.spawn hs hfree)
  | refused hp hfull =>
    rw [if_pos hp] at h
    exact (if_pos hp).mpr (h.refused hfull)
  | finish hp =>
    rw [if_pos hp] at h
    exact h.finish
  | pump hp =>
    rw [if_neg (by simp [hp])] at h
    exact h.pumpTicks hp
  | stay hp hc =>
    rw [if_neg (by simp [hp])] at h
    exact h.stay hc
  | switch hp hc hr =>
    rw [if_neg (by simp [hp])] at h
    exact h.switch hc hr

/-- The invariant holds in every state of every run. -/
theorem Inv.of_run {w : World} (hrun : ReflTransGen Step World.start w) : Inv w := by
  induction hrun with
  | refl =>
    exact ⟨rfl, rfl, rfl, by simp [World.start], rfl,
      by simp [World.start, Kernel.boot, Scheduler.new], fun _ => rfl⟩
  | tail _ hstep ih => exact ih.step hstep

/-- **Every saved context is resumed at most once and never stale.** In every run, each
call of `context_switch` saves the slot that really runs in its own location and
resumes another slot, from a non-null stack pointer that is the one last stored for
it or, if it was never switched out, its synthetic frame; and the selected slot is the
running one whenever no switch is pending. -/
theorem switches_faithful {w : World} (hrun : ReflTransGen Step World.start w) :
    (∀ later r earlier, w.log = later ++ r :: earlier →
        Faithful w.kernel.sched.realTasks w.frames r earlier) ∧
      (w.phase ≠ .boot → w.kernel.sched.switchPending = false →
        w.kernel.currentId = w.kernel.sched.current) := by
  have hinv := Inv.of_run hrun
  unfold Inv at hinv
  split at hinv
  next hp =>
    constructor
    · intro later r earlier hlog
      rw [hinv.log_nil] at hlog
      simp at hlog
    · exact fun hne => absurd hp hne
  next hp =>
    constructor
    · intro later r earlier hlog
      have hall := hinv.faithful
      rw [hlog] at hall
      rw [hinv.realTasks_eq]
      exact hall.of_append
    · exact fun _ => hinv.settled

/-- A run with one task: the boot context switches to it and is switched back to from the
stack pointer it stored. -/
theorem switches_faithful_there_and_back :
    ∃ w r₁ r₂, ReflTransGen Step World.start w ∧ w.log = [r₂, r₁] ∧ r₁.targetSp = 0x2FC8 ∧
      r₂.targetSp = r₁.stored ∧ Faithful 1 [0x2FC8] r₁ [] ∧ Faithful 1 [0x2FC8] r₂ [r₁] := by
  have h₁ : ReflTransGen Step World.start _ := .single
    ⟨_, @Occurs.spawn World.start 0x1000 0x2FC8 rfl (by decide) (by decide)⟩
  have h₂ := (h₁.tail ⟨_, .finish rfl⟩).tail ⟨_, .irq⟩
  have h₃ := (h₂.tail ⟨_, .pump rfl⟩).tail
    ⟨_, @Occurs.switch _ _ _ _ 0x7F00 rfl rfl (by decide)⟩
  have h₄ := ((h₃.tail ⟨_, .irq⟩).tail ⟨_, .pump rfl⟩).tail
    ⟨_, @Occurs.switch _ _ _ _ 0x2F00 rfl rfl (by decide)⟩
  obtain ⟨hall, -⟩ := switches_faithful h₄
  exact ⟨_, _, _, h₄, rfl, rfl, rfl, hall [_] _ [] rfl, hall [] _ [_] rfl⟩

end LionOS.Sched
