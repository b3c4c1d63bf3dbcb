import LionOS.Sched.TaskFn
import Mathlib.Data.Int.CardIntervalMod

/-!
# The CPU goes round

The boot context and every task call `pump_ticks` and `run_pending_switch` over and over. No
slot of the ring is ever blocked, so each selection is the slot behind the one that runs, and
the switches give the CPU to the slots in strict rotation, wherever timer interrupts fall
between the calls. A switch uses up an interrupt of its own, and interrupts that were counted
lead to one at the next call.
-/

namespace LionOS.Sched

open Relation

/-- The state after a timer interrupt. -/
def World.irq (w : World) : World := { w with kernel := w.kernel.onTimerIrq }

/-- A run with `t` timer interrupts in it. -/
inductive Ticked : Nat → World → Prop
  | start : Ticked 0 World.start
  | irq {t : Nat} {w : World} (h : Ticked t w) : Ticked (t + 1) w.irq
  | code {t : Nat} {w w' : World} {e : Event} (h : Ticked t w) (hstep : Occurs w e w')
      (hirq : e ≠ .irq) : Ticked t w'

/-- The slot that runs after `k` switches in a ring of `n` tasks and the boot context. -/
def slotAfter (n k : Nat) : Nat := (n + k) % (n + 1)

/-- Each switch resumes the slot whose turn it is. -/
def Rotates (n : Nat) : List SwitchRecord → Prop
  | [] => True
  | r :: earlier => r.target = slotAfter n (earlier.length + 1) ∧ Rotates n earlier

/-- The switches flagged and not yet made. -/
def World.flagged (w : World) : Nat := if w.kernel.sched.switchPending then 1 else 0

/-- How often slot `i` was resumed. -/
def World.activations (w : World) (i : Nat) : Nat := (w.log.map SwitchRecord.target).count i

/-- The invariant of the rotation. -/
structure Rotating (w : World) : Prop where
  ready : ∀ p ∈ w.kernel.sched.tasks, p.state = .ready
  started : 0 < w.frames.length → w.kernel.sched.started = true
  switches : w.kernel.sched.switches = w.log.length
  rotates : Rotates w.frames.length w.log
  current : w.phase ≠ .boot → w.kernel.sched.started = true →
    w.kernel.sched.current = slotAfter w.frames.length (w.log.length + w.flagged)

/-- The interrupts that are still to lead to a switch, and those that have. -/
def World.used (w : World) : Nat :=
  w.log.length + w.flagged + if w.kernel.pitKicks = 0 then 0 else 1

theorem slotAfter_succ (n k : Nat) : slotAfter n (k + 1) = (slotAfter n k + 1) % (n + 1) := by
  rw [slotAfter, slotAfter, Nat.mod_add_mod, Nat.add_assoc]

/-- The first switch is to task 0. -/
theorem slotAfter_succ_eq (n k : Nat) : slotAfter n (k + 1) = k % (n + 1) := by
  rw [slotAfter, show n + (k + 1) = k + (n + 1) by omega, Nat.add_mod_right]

theorem slotAfter_ne_succ {n : Nat} (hn : 0 < n) (k : Nat) :
    slotAfter n (k + 1) ≠ slotAfter n k := by
  have hlt : slotAfter n k < n + 1 := Nat.mod_lt _ (by omega)
  rw [slotAfter_succ]
  intro h
  by_cases hlast : slotAfter n k = n
  · rw [hlast, Nat.mod_self] at h
    omega
  · rw [Nat.mod_eq_of_lt (by omega)] at h
    omega

/-- With no slot blocked the next one is the one behind. -/
theorem nextIndex_of_ready {tasks : List Pcb} (h : ∀ p ∈ tasks, p.state = .ready)
    (hne : tasks ≠ []) (c : Nat) :
    Scheduler.nextIndex tasks c = some ((c + 1) % tasks.length) := by
  have hpos := List.length_pos_iff.mpr hne
  have hlt := Nat.mod_lt (c + 1) hpos
  obtain ⟨left, hleft⟩ : ∃ left, tasks.length = left + 1 := ⟨tasks.length - 1, by omega⟩
  have hready : Scheduler.selectable (tasks.getD ((c + 1) % tasks.length) .new) = true := by
    rw [List.getD_eq_getElem _ _ hlt, Scheduler.selectable_iff, h _ (List.getElem_mem hlt)]
    decide
  rw [Scheduler.nextIndex]
  conv_lhs => rw [hleft]
  rw [Scheduler.nextIndexFrom]
  exact if_pos hready

/-- The slots resumed, the first one first. -/
theorem Rotates.targets_eq {n : Nat} {log : List SwitchRecord} (h : Rotates n log) :
    (log.map SwitchRecord.target).reverse = (List.range log.length).map (· % (n + 1)) := by
  induction log with
  | nil => rfl
  | cons r earlier ih =>
    have htarget : r.target = earlier.length % (n + 1) := h.1.trans (slotAfter_succ_eq ..)
    rw [List.map_cons, List.reverse_cons, ih h.2, List.length_cons, List.range_succ,
      List.map_append, htarget]
    rfl

/-- Each slot was resumed once in each full round, and the first ones once more. -/
theorem Rotates.activations_eq {w : World} {n i : Nat} (h : Rotates n w.log) (hi : i ≤ n) :
    w.activations i =
      w.log.length / (n + 1) + if i < w.log.length % (n + 1) then 1 else 0 := by
  have hmod : i % (n + 1) = i := Nat.mod_eq_of_lt (by omega)
  have hcount : ∀ m, ((List.range m).map (· % (n + 1))).count i =
      m.count (· ≡ i [MOD n + 1]) := by
    intro m
    induction m with
    | zero => rfl
    | succ m ih =>
      rw [List.range_succ, List.map_append, List.count_append, ih, Nat.count_succ]
      simp [Nat.ModEq, hmod, List.count_singleton]
  have hcard := Nat.count_modEq_card w.log.length (Nat.succ_pos n) i
  rw [World.activations, ← List.count_reverse, h.targets_eq, hcount, hcard]
  simp only [Nat.succ_eq_add_one, hmod]

section

variable {w : World}

theorem Rotating.irq (h : Rotating w) : Rotating w.irq := by
  refine ⟨?_, ?_, ?_, h.rotates, ?_⟩
  · simpa [World.irq] using h.ready
  · simpa [World.irq] using h.started
  · simpa [World.irq] using h.switches
  · simpa [World.irq, World.flagged] using h.current

/-- Before the ring is closed every slot is ready and nothing was switched. -/
theorem BootInv.rotating (h : BootInv w) (hp : w.phase = .boot)
    (hstarted : 0 < w.frames.length → w.kernel.sched.started = true)
    (hswitches : w.kernel.sched.switches = 0) : Rotating w where
  ready p hmem := by
    rw [h.tasks_eq] at hmem
    obtain ⟨f, -, rfl⟩ := List.mem_map.mp hmem
    rfl
  started := hstarted
  switches := by rw [hswitches, h.log_nil, List.length_nil]
  rotates := by
    rw [h.log_nil]
    trivial
  current hne := absurd hp hne

/-- The first task starts the scheduler. -/
theorem spawn_started {k : Kernel} {f stack : Nat} (hfree : k.sched.realTasks < tasksCap - 1)
    (hstarted : 0 < k.sched.realTasks → k.sched.started = true) :
    (k.spawn f stack).sched.started = true := by
  have hnot : ¬ 3 ≤ k.sched.realTasks := Nat.not_le.mpr hfree
  by_cases h0 : k.sched.realTasks = 0
  · simp [Kernel.spawn, tasksCap, h0]
  · simp [Kernel.spawn, tasksCap, hnot, h0, hstarted (Nat.pos_of_ne_zero h0)]

/-- No task touches the counters. -/
theorem spawn_counters (k : Kernel) (f stack : Nat) :
    (k.spawn f stack).sched.switches = k.sched.switches ∧
      (k.spawn f stack).pitKicks = k.pitKicks ∧
      (k.spawn f stack).sched.switchPending = k.sched.switchPending := by
  unfold Kernel.spawn
  dsimp only
  split
  · exact ⟨rfl, rfl, rfl⟩
  split <;> exact ⟨rfl, rfl, rfl⟩

/-- Closing the ring makes the boot context the slot that runs. -/
theorem Rotating.finish (h : Rotating w) (hb : BootInv w) :
    Rotating { w with kernel := w.kernel.finish, phase := .pump } := by
  by_cases hn : w.kernel.sched.realTasks = 0
  · have hk : w.kernel.finish = w.kernel := by simp [Kernel.finish, hn]
    rw [hk]
    refine ⟨h.ready, h.started, h.switches, h.rotates, fun _ hs => ?_⟩
    have hpos := hb.started hs
    have hlen := hb.realTasks_eq
    omega
  · rw [finish_of_ne hn]
    refine ⟨?_, h.started, h.switches, h.rotates, fun _ _ => ?_⟩
    · intro p hp
      rcases List.mem_append.mp hp with hold | hnew
      · exact h.ready p hold
      · obtain rfl := List.mem_singleton.mp hnew
        rfl
    · have hlt : w.frames.length < w.frames.length + 1 := Nat.lt_succ_self _
      simp [World.flagged, hb.pending, hb.log_nil, hb.realTasks_eq, slotAfter,
        Nat.mod_eq_of_lt hlt]

/-- What `pump_ticks` selects: the slot behind, if an interrupt was counted. -/
theorem pumpTicks_of_ready {k : Kernel} {n c : Nat} (h : ∀ p ∈ k.sched.tasks, p.state = .ready)
    (hlen : k.sched.tasks.length = n + 1) (hn : 0 < n) (hs : k.sched.started = true)
    (hc : k.sched.current = slotAfter n c) :
    k.pumpTicks = if k.pitKicks = 0 then k else
      { k with
        pitKicks := 0
        sched := { k.sched with current := slotAfter n (c + 1), switchPending := true } } := by
  have hne : k.sched.tasks ≠ [] := by
    intro hnil
    rw [hnil, List.length_nil] at hlen
    omega
  have hnext := nextIndex_of_ready h hne k.sched.current
  rw [hlen, hc, ← slotAfter_succ] at hnext
  have hother := slotAfter_ne_succ hn c
  split
  next hk => cases k; simp_all [Kernel.pumpTicks]
  next hk => simp [Kernel.pumpTicks, hk, hs, Scheduler.tick, hc, hnext, hother]

@[simp] theorem writeSlot_switches (k : Kernel) (slot : Slot) (rsp : Nat) :
    (k.writeSlot slot rsp).sched.switches = k.sched.switches := by
  cases slot <;> rfl

/-- One event keeps the rotation. -/
theorem Rotating.step (h : Rotating w) (hinv : Inv w) {w' : World} {e : Event}
    (hstep : Occurs w e w') : Rotating w' := by
  unfold Inv at hinv
  cases hstep with
  | irq => exact h.irq
  | @spawn f stack hp hs hfree =>
    rw [if_pos hp] at hinv
    refine (hinv.spawn hs hfree).rotating hp (fun _ => spawn_started hfree fun hpos => ?_) ?_
    · exact h.started (hinv.realTasks_eq ▸ hpos)
    · rw [(spawn_counters w.kernel f stack).1, h.switches, hinv.log_nil, List.length_nil]
  | @refused f stack hp hfull =>
    rw [if_pos hp] at hinv
    rw [spawn_of_full f stack hfull]
    exact ⟨h.ready, h.started, h.switches, h.rotates, h.current⟩
  | finish hp =>
    rw [if_pos hp] at hinv
    exact h.finish hinv
  | pump hp =>
    have hboot : w.phase ≠ .boot := by simp [hp]
    rw [if_neg hboot] at hinv
    have hidle := hinv.pump hp
    rcases pumpTicks_cases w.kernel with hk | ⟨i, hs, hi, hne, hk⟩
    · rw [hk]
      exact ⟨h.ready, h.started, h.switches, h.rotates, fun _ => h.current hboot⟩
    · have hlen := hinv.ring hs
      have hbound := (hinv.bounds hs).1
      have hcur := h.current hboot hs
      rw [World.flagged, hidle, if_neg Bool.false_ne_true, Nat.add_zero] at hcur
      have hpump := pumpTicks_of_ready h.ready hlen (by omega) hs hcur
      split at hpump
      next hk0 =>
        rw [hpump]
        exact ⟨h.ready, h.started, h.switches, h.rotates, fun _ => h.current hboot⟩
      next =>
        rw [hpump]
        exact ⟨h.ready, h.started, h.switches, h.rotates, fun _ _ => by simp [World.flagged]⟩
  | @stay k hp hc =>
    have hboot : w.phase ≠ .boot := by simp [hp]
    rcases runPendingSwitch_cases w.kernel with ⟨-, hk⟩ | ⟨-, -, hk⟩
    · obtain ⟨rfl, -⟩ := Prod.mk.inj (hc.symm.trans hk)
      exact ⟨h.ready, h.started, h.switches, h.rotates, fun _ => h.current hboot⟩
    · exact absurd (hc.symm.trans hk) (by simp)
  | @switch k slot targetSp rsp hp hc hr =>
    have hboot : w.phase ≠ .boot := by simp [hp]
    rcases runPendingSwitch_cases w.kernel with ⟨-, hk⟩ | ⟨hs, hpend, hk⟩
    · exact absurd (hc.symm.trans hk) (by simp)
    · obtain ⟨rfl, -⟩ := Prod.mk.inj (hc.symm.trans hk)
      have hcur := h.current hboot hs
      rw [World.flagged, hpend, if_pos rfl] at hcur
      refine ⟨fun p hmem => writeSlot_ready ?_ slot rsp p hmem, ?_, ?_, ⟨hcur, h.rotates⟩, ?_⟩
      · exact h.ready
      · simpa using h.started
      · simp [h.switches]
      · simp [World.flagged, hcur]

theorem used_irq_le : w.irq.used ≤ w.used + 1 := by
  have hflag : w.irq.flagged = w.flagged := by simp [World.flagged, World.irq]
  unfold World.used
  rw [hflag]
  change w.log.length + _ + _ ≤ _
  split <;> split <;> omega

/-- The code uses interrupts up and makes none. -/
theorem used_le (hinv : Inv w) {w' : World} {e : Event} (hstep : Occurs w e w')
    (hirq : e ≠ .irq) : w'.used ≤ w.used := by
  unfold Inv at hinv
  cases hstep with
  | irq => exact absurd rfl hirq
  | @spawn f stack hp hs hfree =>
    simp [World.used, World.flagged, spawn_counters]
  | @refused f stack hp hfull =>
    rw [spawn_of_full f stack hfull]
    exact le_rfl
  | finish hp =>
    have hsame : w.kernel.finish.pitKicks = w.kernel.pitKicks ∧
        w.kernel.finish.sched.switchPending = w.kernel.sched.switchPending := by
      unfold Kernel.finish
      split <;> exact ⟨rfl, rfl⟩
    simp [World.used, World.flagged, hsame]
  | pump hp =>
    rw [if_neg (by simp [hp])] at hinv
    have hidle := hinv.pump hp
    by_cases hk : w.kernel.pitKicks = 0
    · have hsame : w.kernel.pumpTicks = w.kernel := by
        cases hw : w.kernel
        simp_all [Kernel.pumpTicks]
      simp [World.used, World.flagged, hsame]
    · rcases pumpTicks_cases w.kernel with hpump | ⟨i, -, -, -, hpump⟩
      · simp [World.used, World.flagged, hpump]
      · simp [World.used, World.flagged, hpump, hidle, hk]
  | @stay k hp hc =>
    rcases runPendingSwitch_cases w.kernel with ⟨-, hk⟩ | ⟨-, -, hk⟩
    · obtain ⟨rfl, -⟩ := Prod.mk.inj (hc.symm.trans hk)
      exact le_rfl
    · exact absurd (hc.symm.trans hk) (by simp)
  | @switch k slot targetSp rsp hp hc hr =>
    rcases runPendingSwitch_cases w.kernel with ⟨-, hk⟩ | ⟨-, hpend, hk⟩
    · exact absurd (hc.symm.trans hk) (by simp)
    · obtain ⟨rfl, -⟩ := Prod.mk.inj (hc.symm.trans hk)
      simp [World.used, World.flagged, hpend]

end

theorem Ticked.run {t : Nat} {w : World} (h : Ticked t w) : ReflTransGen Step World.start w := by
  induction h with
  | start => exact .refl
  | irq _ ih => exact ih.tail ⟨_, .irq⟩
  | code _ hstep _ ih => exact ih.tail ⟨_, hstep⟩

theorem Ticked.rotating {t : Nat} {w : World} (h : Ticked t w) : Rotating w ∧ w.used ≤ t := by
  induction h with
  | start =>
    refine ⟨⟨?_, ?_, rfl, trivial, ?_⟩, le_rfl⟩
    · simp [World.start, Kernel.boot, Scheduler.new]
    · simp [World.start]
    · simp [World.start]
  | irq h ih => exact ⟨ih.1.irq, used_irq_le.trans (by omega)⟩
  | code h hstep hirq ih =>
    have hinv := Inv.of_run h.run
    exact ⟨ih.1.step hinv hstep, (used_le hinv hstep hirq).trans ih.2⟩

/-- **The CPU goes round.** In every run with `n` spawned tasks, wherever the timer interrupts
fall: the switches resume task 0, task 1 and so on up to the boot context, over and over; so
no slot was resumed more than once more often than another. The counter of switches counts
them, there were at least as many interrupts, and a context that calls `pump_ticks` when an
interrupt was counted gives the CPU to the next slot. -/
theorem cpu_goes_round {t n : Nat} {w : World} (hrun : Ticked t w) (hring : w.phase ≠ .boot)
    (hn : w.kernel.sched.realTasks = n) (hpos : 0 < n) :
    (w.log.map SwitchRecord.target).reverse =
        (List.range w.log.length).map (fun k => k % (n + 1)) ∧
      (∀ i j, i ≤ n → j ≤ n → w.activations i ≤ w.activations j + 1) ∧
      w.kernel.sched.switches = w.log.length ∧ w.log.length ≤ t ∧
      (w.phase = .pump → w.kernel.pitKicks ≠ 0 →
        ∃ k call, w.kernel.pumpTicks.runPendingSwitch = (k, some call) ∧
          k.currentId = w.log.length % (n + 1)) := by
  have hinv := Inv.of_run hrun.run
  rw [Inv, if_neg hring] at hinv
  obtain ⟨hrot, hused⟩ := hrun.rotating
  have hlen : w.frames.length = n := hinv.realTasks_eq.symm.trans hn
  have hturns := hlen ▸ hrot.rotates
  refine ⟨hturns.targets_eq, fun i j hi hj => ?_, hrot.switches, ?_, fun hp hk => ?_⟩
  · rw [hturns.activations_eq hi, hturns.activations_eq hj]
    split <;> split <;> omega
  · unfold World.used at hused
    omega
  · have hs := hrot.started (hlen ▸ hpos)
    have hcur := hrot.current hring hs
    rw [World.flagged, hinv.pump hp, if_neg Bool.false_ne_true, Nat.add_zero] at hcur
    have hpump := pumpTicks_of_ready hrot.ready (hinv.ring hs) (hlen ▸ hpos) hs hcur
    rw [if_neg hk] at hpump
    rw [hpump, ← slotAfter_succ_eq, ← hlen]
    exact ⟨_, _, if_neg (by simp [hs]), rfl⟩

/-- One task and two interrupts, with the second switch still to come. -/
theorem cpu_goes_round_there :
    ∃ w, Ticked 2 w ∧ (w.log.map SwitchRecord.target).reverse = [0] ∧
      ∃ k call, w.kernel.pumpTicks.runPendingSwitch = (k, some call) ∧ k.currentId = 1 := by
  have h₁ : Ticked 0 _ := .code .start
    (@Occurs.spawn World.start 0x1000 0x2FC8 rfl (by decide) (by decide)) (by simp)
  have h₂ : Ticked 0 _ := .code h₁ (.finish rfl) (by simp)
  have h₃ : Ticked 1 _ := .code h₂.irq (.pump rfl) (by simp)
  have h₄ : Ticked 1 _ := .code h₃ (@Occurs.switch _ _ _ _ 0x7F00 rfl rfl (by decide)) (by simp)
  obtain ⟨htargets, -, -, -, hnext⟩ := cpu_goes_round h₄.irq (by decide) rfl Nat.one_pos
  exact ⟨_, h₄.irq, htargets, hnext rfl (by decide)⟩

end LionOS.Sched
