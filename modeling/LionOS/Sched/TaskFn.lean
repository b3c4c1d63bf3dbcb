import LionOS.Sched.RoundRobin
import LionOS.Sched.Switching

/-!
# Which function a task runs

`spawn` records the function in one static for all tasks, also when the ring is full, and a
fresh context starts in `task_entry`, which reads it when the context is first resumed. By
then the ring is closed, so every task runs the function of the last call of `spawn`.

A run is a run of the scheduler that keeps the functions spawned and the function each fresh
task has run. The functions return and do not call the scheduler.
-/

namespace LionOS.Sched

open Relation

/-- The function `task_entry` runs. -/
def Kernel.taskEntry (k : Kernel) : Option Nat := k.taskFn

/-- A state of the scheduler, the functions offered to `spawn` and those accepted, in order,
and the fresh tasks resumed so far with the function each ran, latest first. -/
structure Run where
  world : World
  offered : List Nat
  accepted : List Nat
  ran : List (Nat × Option Nat)

/-- Nothing has been spawned. -/
def Run.start : Run := ⟨.start, [], [], []⟩

/-- The slots that have run for the first time when `k` resumes its current one: a real task
without a saved context is resumed in `task_entry`. -/
def firstRan (w : World) (k : Kernel) : List (Nat × Option Nat) :=
  if k.currentId < w.frames.length ∧ lastStored w.log k.currentId = none then
    [(k.currentId, k.taskEntry)]
  else []

/-- What an event that leads to `w` adds to the record. -/
def Run.after (r : Run) (w : World) : Event → Run
  | .spawn f => { r with world := w, offered := r.offered ++ [f], accepted := r.accepted ++ [f] }
  | .refused f => { r with world := w, offered := r.offered ++ [f] }
  | .switch k => { r with world := w, ran := firstRan r.world k ++ r.ran }
  | .irq | .finish | .pump | .stay => { r with world := w }

/-- One event of the scheduler and its record. -/
inductive RunStep (r : Run) : Run → Prop
  | event {e : Event} {w : World} (h : Occurs r.world e w) : RunStep r (r.after w e)

@[simp] theorem Run.after_world (r : Run) (w : World) (e : Event) : (r.after w e).world = w := by
  cases e <;> rfl

/-- An event of a run is one of the scheduler. -/
theorem RunStep.step {r r' : Run} (h : RunStep r r') : Step r.world r'.world := by
  obtain ⟨h⟩ := h
  rw [Run.after_world]
  exact ⟨_, h⟩

/-- A run in which `fs` were spawned and the ring was closed has come to `r`. -/
def Comes (fs : List Nat) (r : Run) : Prop :=
  ReflTransGen RunStep Run.start r ∧ r.world.phase ≠ .boot ∧ r.offered = fs

/-- Every task that has run ran the function it was spawned with. -/
def RunsOwn (r : Run) : Prop := ∀ a ∈ r.ran, a.1 < r.accepted.length ∧ a.2 = r.accepted[a.1]?

theorem spawn_taskFn (k : Kernel) (f stack : Nat) : (k.spawn f stack).taskFn = some f := by
  unfold Kernel.spawn
  dsimp only
  split
  · rfl
  split <;> rfl

theorem finish_taskFn (k : Kernel) : k.finish.taskFn = k.taskFn := by
  unfold Kernel.finish
  split <;> rfl

theorem onTimerIrq_taskFn (k : Kernel) : k.onTimerIrq.taskFn = k.taskFn := by
  unfold Kernel.onTimerIrq
  split <;> rfl

theorem pumpTicks_taskFn (k : Kernel) : k.pumpTicks.taskFn = k.taskFn := by
  rcases pumpTicks_cases k with hk | ⟨i, -, -, -, hk⟩
  · rw [hk]
  · rw [hk]

theorem runPendingSwitch_taskFn (k : Kernel) : k.runPendingSwitch.1.taskFn = k.taskFn := by
  rcases runPendingSwitch_cases k with ⟨-, hk⟩ | ⟨-, -, hk⟩
  · rw [hk]
  · rw [hk]

theorem writeSlot_taskFn (k : Kernel) (slot : Slot) (rsp : Nat) :
    (k.writeSlot slot rsp).taskFn = k.taskFn := by
  cases slot <;> rfl

/-- The invariant of a run: the first three functions are accepted, the static holds the
last one offered, and every task that has run ran what the static holds. -/
structure RunInv (r : Run) : Prop where
  accepted_eq : r.accepted = r.offered.take 3
  frames_eq : r.world.frames.length = r.accepted.length
  taskFn_eq : r.world.kernel.taskFn = r.offered.getLast?
  boot : r.world.phase = .boot →
    r.ran = [] ∧ r.world.kernel.sched.realTasks = r.accepted.length
  ran : ∀ a ∈ r.ran, a.1 < r.accepted.length ∧ a.2 = r.world.kernel.taskFn

/-- Events that resume nothing and keep the static keep the invariant, once the ring is
closed. -/
theorem RunInv.of_same {r : Run} (h : RunInv r) {w : World} (hframes : w.frames = r.world.frames)
    (htaskFn : w.kernel.taskFn = r.world.kernel.taskFn) (hphase : w.phase ≠ .boot) :
    RunInv { r with world := w } := by
  refine ⟨h.accepted_eq, ?_, htaskFn.trans h.taskFn_eq, fun hboot => absurd hboot hphase, ?_⟩
  · rw [hframes]
    exact h.frames_eq
  · rw [htaskFn]
    exact h.ran

theorem RunInv.step {r r' : Run} (h : RunInv r) (hstep : RunStep r r') : RunInv r' := by
  obtain ⟨hstep⟩ := hstep
  cases hstep with
  | irq =>
    dsimp only [Run.after]
    refine ⟨h.accepted_eq, h.frames_eq, (onTimerIrq_taskFn _).trans h.taskFn_eq, ?_, ?_⟩
    · simpa using h.boot
    · simpa [onTimerIrq_taskFn] using h.ran
  | @spawn f stack hp hs hfree =>
    dsimp only [Run.after]
    obtain ⟨hran, hreal⟩ := h.boot hp
    have hlt : r.world.kernel.sched.realTasks < 3 := hfree
    have hshort : r.offered.length < 3 := by
      have hlen := congrArg List.length h.accepted_eq
      rw [List.length_take] at hlen
      omega
    refine ⟨?_, ?_, ?_, fun _ => ⟨hran, ?_⟩, by simp [hran]⟩
    · rw [h.accepted_eq, List.take_of_length_le hshort.le, List.take_of_length_le]
      rw [List.length_append, List.length_singleton]
      omega
    · simpa using h.frames_eq
    · simp [spawn_taskFn]
    · have hfull : ¬ tasksCap - 1 ≤ r.world.kernel.sched.realTasks := Nat.not_le.mpr hfree
      simp only [Kernel.spawn, hfull, if_false, List.length_append, List.length_singleton, ← hreal]
      split <;> rfl
  | @refused f stack hp hfull =>
    dsimp only [Run.after]
    obtain ⟨hran, hreal⟩ := h.boot hp
    have hge : 3 ≤ r.world.kernel.sched.realTasks := hfull
    have hlong : 3 ≤ r.offered.length := by
      have hlen := congrArg List.length h.accepted_eq
      rw [List.length_take] at hlen
      omega
    refine ⟨?_, h.frames_eq, ?_, fun _ => ⟨hran, ?_⟩, by simp [hran]⟩
    · rw [h.accepted_eq, List.take_append_of_le_length hlong]
    · simp [spawn_taskFn]
    · rw [spawn_of_full f stack hfull]
      exact hreal
  | finish hp => exact h.of_same rfl (finish_taskFn _) (by simp)
  | pump hp => exact h.of_same rfl (pumpTicks_taskFn _) (by simp)
  | @stay k hp hc =>
    have hk : k.taskFn = r.world.kernel.taskFn := by
      rw [← runPendingSwitch_taskFn r.world.kernel, hc]
    exact h.of_same rfl hk (by simp)
  | @switch k slot targetSp rsp hp hc hr =>
    dsimp only [Run.after]
    have hk : k.taskFn = r.world.kernel.taskFn := by
      rw [← runPendingSwitch_taskFn r.world.kernel, hc]
    refine ⟨h.accepted_eq, h.frames_eq, ?_, by simp, ?_⟩
    · rw [writeSlot_taskFn, hk]
      exact h.taskFn_eq
    · intro a ha
      dsimp only at ha ⊢
      rw [writeSlot_taskFn, hk]
      rcases List.mem_append.mp ha with hnew | hold
      · unfold firstRan at hnew
        split at hnew
        next hfresh =>
          rw [List.mem_singleton.mp hnew]
          exact ⟨h.frames_eq ▸ hfresh.1, hk⟩
        next => exact absurd hnew List.not_mem_nil
      · exact h.ran a hold

theorem RunInv.of_run {r : Run} (h : ReflTransGen RunStep Run.start r) : RunInv r := by
  induction h with
  | refl => exact ⟨rfl, rfl, rfl, fun _ => ⟨rfl, rfl⟩, by simp [Run.start]⟩
  | tail _ hstep ih => exact ih.step hstep

/-- Any functions can be spawned. -/
theorem exists_boot (fs : List Nat) : ∃ r, ReflTransGen RunStep Run.start r ∧ r.offered = fs ∧
    r.world.phase = .boot ∧ r.world.kernel.pitKicks = 0 ∧
    (fs ≠ [] → r.world.kernel.sched.started = true ∧ r.world.kernel.schedOn = true) := by
  induction fs using List.reverseRecOn with
  | nil => exact ⟨.start, .refl, rfl, rfl, rfl, by simp⟩
  | append_singleton fs f ih =>
    obtain ⟨r, hrun, hoff, hphase, hkicks, hon⟩ := ih
    have hreal : r.world.kernel.sched.realTasks = (fs.take 3).length := by
      rw [((RunInv.of_run hrun).boot hphase).2, (RunInv.of_run hrun).accepted_eq, hoff]
    by_cases hfull : tasksCap - 1 ≤ r.world.kernel.sched.realTasks
    · have hne : fs ≠ [] := by
        rintro rfl
        simp [hreal, tasksCap] at hfull
      refine ⟨_, hrun.tail (.event (@Occurs.refused r.world f 1 hphase hfull)),
        by rw [← hoff]; rfl, hphase, ?_, ?_⟩
      · rw [Run.after_world, spawn_of_full f 1 hfull, hkicks]
      · intro _
        rw [Run.after_world, spawn_of_full f 1 hfull]
        exact hon hne
    · refine ⟨_, hrun.tail (.event (@Occurs.spawn r.world f 1 hphase (by decide)
        (Nat.lt_of_not_le hfull))), by rw [← hoff]; rfl, hphase, ?_, ?_⟩
      · simp only [Run.after_world, Kernel.spawn, hfull, if_false]
        split <;> exact hkicks
      · intro _
        by_cases hfirst : r.world.kernel.sched.realTasks + 1 = 1
        · simp only [Run.after_world, Kernel.spawn, hfull, hfirst, if_true, if_false, and_self]
        · have hne : fs ≠ [] := by
            rintro rfl
            exact hfirst (by rw [hreal]; rfl)
          simpa only [Run.after_world, Kernel.spawn, hfull, hfirst, if_false] using hon hne

/-- Once an interrupt was counted, the next slot of the ring is selected and resumed. -/
theorem runPendingSwitch_pumpTicks {k : Kernel} {t : Nat} (hon : k.schedOn = true)
    (hkicks : k.pitKicks = 0) (hs : k.sched.started = true) (hne : t ≠ k.sched.current)
    (hnext : Scheduler.nextIndex k.sched.tasks k.sched.current = some t) :
    k.onTimerIrq.pumpTicks.currentId = k.currentId ∧
      ∃ k' slot sp, k.onTimerIrq.pumpTicks.runPendingSwitch = (k', some (slot, sp)) ∧
        k'.sched = { k.sched with
          current := t, switches := k.sched.switches + 1, switchPending := false } ∧
        k'.currentId = t ∧ k'.schedOn = true ∧ k'.pitKicks = 0 ∧ k'.taskFn = k.taskFn := by
  have hpump : k.onTimerIrq.pumpTicks =
      { k with sched := { k.sched with current := t, switchPending := true } } := by
    simp [Kernel.onTimerIrq, hon, Kernel.pumpTicks, hkicks, hs, Scheduler.tick, hnext, hne]
  rw [hpump]
  refine ⟨rfl, _, _, _, if_neg ?_, rfl, rfl, hon, hkicks, rfl⟩
  simp [hs]

/-- Storing a stack pointer leaves every slot ready. -/
theorem writeSlot_ready {k : Kernel} (h : ∀ p ∈ k.sched.tasks, p.state = .ready) (slot : Slot)
    (rsp : Nat) : ∀ p ∈ (k.writeSlot slot rsp).sched.tasks, p.state = .ready := by
  cases slot with
  | idle => exact h
  | task i =>
    intro p hp
    rcases List.mem_or_eq_of_mem_set hp with hold | rfl
    · exact h p hold
    · change (k.sched.tasks.getD i .new).state = .ready
      by_cases hi : i < k.sched.tasks.length
      · rw [List.getD_eq_getElem _ _ hi]
        exact h _ (List.getElem_mem hi)
      · rw [List.getD_eq_default _ _ (Nat.not_lt.mp hi)]
        rfl

@[simp] theorem writeSlot_pitKicks (k : Kernel) (slot : Slot) (rsp : Nat) :
    (k.writeSlot slot rsp).pitKicks = k.pitKicks := by
  cases slot <;> rfl

@[simp] theorem writeSlot_schedOn (k : Kernel) (slot : Slot) (rsp : Nat) :
    (k.writeSlot slot rsp).schedOn = k.schedOn := by
  cases slot <;> rfl

/-- The ring of `m` tasks has turned `t ≤ m` times from the boot context on: tasks 0 to
`t - 1` have run. -/
structure Turned (m t : Nat) (r : Run) : Prop where
  phase : r.world.phase = .pump
  ready : ∀ p ∈ r.world.kernel.sched.tasks, p.state = .ready
  length : r.world.kernel.sched.tasks.length = m + 1
  frames : r.world.frames.length = m
  current : r.world.kernel.sched.current = if t = 0 then m else t - 1
  currentId : r.world.kernel.currentId = r.world.kernel.sched.current
  started : r.world.kernel.sched.started = true
  schedOn : r.world.kernel.schedOn = true
  kicks : r.world.kernel.pitKicks = 0
  log : ∀ q ∈ r.world.log, q.running = m ∨ q.running + 1 < t
  taskFn : r.world.kernel.taskFn = r.offered.getLast?
  ran : ∀ i < t, (i, r.offered.getLast?) ∈ r.ran

/-- One interrupt, one selection and one switch turn the ring to the next task. -/
theorem Turned.next {m t : Nat} {r : Run} (h : Turned m t r) (ht : t < m) :
    ∃ r', ReflTransGen RunStep r r' ∧ Turned m (t + 1) r' ∧ r'.offered = r.offered := by
  have hcur : (r.world.kernel.sched.current + 1) % r.world.kernel.sched.tasks.length = t := by
    rw [h.current, h.length]
    split
    next h0 => rw [Nat.mod_self, h0]
    next h0 => rw [Nat.sub_add_cancel (by omega), Nat.mod_eq_of_lt (by omega)]
  have hne : t ≠ r.world.kernel.sched.current := by
    rw [h.current]
    split <;> omega
  have hlt : t < r.world.kernel.sched.tasks.length := by
    have := h.length
    omega
  have hready : Scheduler.selectable (r.world.kernel.sched.tasks.getD t .new) = true := by
    rw [List.getD_eq_getElem _ _ hlt, Scheduler.selectable_iff, h.ready _ (List.getElem_mem hlt)]
    decide
  have hnext : Scheduler.nextIndex r.world.kernel.sched.tasks r.world.kernel.sched.current =
      some t := by
    rw [Scheduler.nextIndex, h.length, Scheduler.nextIndexFrom, hcur]
    simp only [hready, if_true]
  obtain ⟨hrunning, k, slot, sp, hc, hsched, hid, hon, hkicks, hfn⟩ :=
    runPendingSwitch_pumpTicks h.schedOn h.kicks h.started hne hnext
  have hirq : ReflTransGen RunStep r _ := .single (.event (Occurs.irq (w := r.world)))
  have hrun := hirq.tail (.event (.pump h.phase))
  refine ⟨_, hrun.tail (.event (@Occurs.switch _ k slot sp 1 rfl hc (by decide))), ?_, rfl⟩
  -- Only earlier slots of the ring and the boot context were switched out.
  have hfresh : lastStored r.world.log t = none := by
    rw [lastStored, List.find?_eq_none.mpr, Option.map_none]
    intro q hq
    have := h.log q hq
    simp only [decide_eq_true_eq]
    omega
  dsimp only [Run.after]
  constructor
  · rfl
  · exact writeSlot_ready (by simpa [hsched] using h.ready) slot 1
  · simpa [hsched] using h.length
  · exact h.frames
  · simp [hsched]
  · simp [hid, hsched]
  · simpa [hsched] using h.started
  · simpa using hon
  · simpa using hkicks
  · intro q hq
    rcases List.mem_cons.mp hq with rfl | hold
    · simp only [hrunning, h.currentId, h.current]
      split <;> omega
    · have := h.log q hold
      omega
  · simpa [writeSlot_taskFn, hfn] using h.taskFn
  · intro i hi
    rw [List.mem_append]
    by_cases hit : i = t
    · left
      simp [firstRan, hid, h.frames, ht, hfresh, Kernel.taskEntry, hfn, h.taskFn, hit]
    · right
      exact h.ran i (by omega)

/-- Once the ring is closed, it has not turned yet. -/
private theorem exists_turned_zero (fs : List Nat) (hne : fs ≠ []) :
    ∃ r, ReflTransGen RunStep Run.start r ∧ r.offered = fs ∧ Turned (fs.take 3).length 0 r := by
  obtain ⟨r, hrun, hoff, hphase, hkicks, hon⟩ := exists_boot fs
  obtain ⟨hstarted, hsched⟩ := hon hne
  have hinv := RunInv.of_run hrun
  have hreal : r.world.kernel.sched.realTasks = (fs.take 3).length := by
    rw [(hinv.boot hphase).2, hinv.accepted_eq, hoff]
  have hboot : BootInv r.world := by
    have := Inv.of_run (hrun.lift Run.world fun _ _ => RunStep.step)
    rwa [Inv, if_pos hphase] at this
  have hpos : r.world.kernel.sched.realTasks ≠ 0 := by
    rw [hreal]
    simpa using hne
  refine ⟨_, hrun.tail (.event (.finish hphase)), hoff, ?_⟩
  rw [finish_of_ne hpos]
  dsimp only [Run.after]
  constructor
  · rfl
  · intro p hp
    simp only [hboot.tasks_eq, List.mem_append, List.mem_map, List.mem_singleton] at hp
    rcases hp with ⟨f, -, rfl⟩ | rfl <;> rfl
  · simp only [hboot.tasks_eq, List.length_append, List.length_map, List.length_singleton,
      ← hboot.realTasks_eq, hreal]
  · rw [← hreal, hboot.realTasks_eq]
  · simp only [hreal, if_true]
  · rfl
  · exact hstarted
  · exact hsched
  · exact hkicks
  · simp [hboot.log_nil]
  · exact hinv.taskFn_eq
  · simp

/-- Some run gives every task its turn. -/
theorem exists_turned (fs : List Nat) (hne : fs ≠ []) {t : Nat} (ht : t ≤ (fs.take 3).length) :
    ∃ r, ReflTransGen RunStep Run.start r ∧ r.offered = fs ∧ Turned (fs.take 3).length t r := by
  induction t with
  | zero => exact exists_turned_zero fs hne
  | succ t ih =>
    obtain ⟨r, hrun, hoff, hturned⟩ := ih (by omega)
    obtain ⟨r', hrun', hturned', hoff'⟩ := hturned.next (by omega)
    exact ⟨r', hrun.trans hrun', hoff'.trans hoff, hturned'⟩

/-- **Which spawned functions all run as their own task.** Every task runs the function it
was spawned with in every run exactly when the functions accepted are all the last one
offered, be that one accepted or refused. -/
theorem runsOwn_iff (fs : List Nat) :
    (∀ r, Comes fs r → RunsOwn r) ↔ ∀ f ∈ fs.take 3, fs.getLast? = some f := by
  constructor
  · intro hown f hf
    have hne : fs ≠ [] := by
      rintro rfl
      simp at hf
    obtain ⟨r, hrun, hoff, hturned⟩ := exists_turned fs hne le_rfl
    have hcomes : Comes fs r := ⟨hrun, by simp [hturned.phase], hoff⟩
    obtain ⟨i, hi, rfl⟩ := List.getElem_of_mem hf
    obtain ⟨-, hfn⟩ := hown r hcomes _ (hturned.ran i hi)
    rw [(RunInv.of_run hrun).accepted_eq, hoff, List.getElem?_eq_getElem hi] at hfn
    exact hfn
  · rintro hlast r ⟨hrun, -, rfl⟩ a ha
    have hinv := RunInv.of_run hrun
    obtain ⟨hlt, hfn⟩ := hinv.ran a ha
    refine ⟨hlt, ?_⟩
    rw [hfn, hinv.taskFn_eq, List.getElem?_eq_getElem hlt]
    apply hlast
    rw [← hinv.accepted_eq]
    exact List.getElem_mem hlt

/-- Two different functions: the first task runs the second one. -/
theorem not_runsOwn_two : ¬ ∀ r, Comes [1, 2] r → RunsOwn r := by
  intro hown
  have h₁ : ReflTransGen RunStep Run.start _ := .single
    (.event (@Occurs.spawn World.start 1 0x2FC8 rfl (by decide) (by decide)))
  have h₂ := h₁.tail (.event (@Occurs.spawn _ 2 0x4FC8 rfl (by decide) (by decide)))
  have h₃ := ((h₂.tail (.event (.finish rfl))).tail (.event .irq)).tail (.event (.pump rfl))
  have h₄ := h₃.tail (.event (@Occurs.switch _ _ _ _ 0x7F00 rfl rfl (by decide)))
  obtain ⟨-, hfn⟩ := hown _ ⟨h₄, by decide, rfl⟩ (0, some 2) (List.mem_singleton.mpr rfl)
  exact absurd hfn (by decide)

end LionOS.Sched
