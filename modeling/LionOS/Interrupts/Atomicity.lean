import LionOS.Interrupts.Preemption

/-!
# The lock makes the queue atomic

Seen one access at a time, the queue passes through states in which it holds no list. Under
`Q_LOCK` nobody sees these: a run of the processor is a run of whole accesses, each of them
made when the lock is given back.
-/

namespace LionOS.Interrupts

open Relation

variable {Item : Type} {item f : Item} {m : Shared Item} {a : State Item}

/-- What a call of `enqueue` that has the lock has done to the queue so far. -/
def EnqueuePc.Sees (before now : Queue Item) : EnqueuePc Item → Prop
  | .acquire _ => True
  | .loadTail _ => now = before
  | .loadHead _ tail => now = before ∧ tail = before.qTail
  | .writeSlot item tail =>
    now = before ∧ tail = before.qTail ∧ (enqueue before item).2 = true
  | .storeTail item tail =>
    now = before.setSlot tail (some item) ∧ tail = before.qTail ∧
      (enqueue before item).2 = true
  | .release item accepted => enqueue before item = (now, accepted)

/-- What a call of `run_deferred` that has the lock has done to the queue so far. -/
def DrainPc.Sees (before now : Queue Item) : DrainPc Item → Prop
  | .acquire | .holding _ | .running _ => True
  | .loadHead => now = before
  | .loadTail head => now = before ∧ head = before.qHead
  | .takeSlot head => now = before ∧ head = before.qHead ∧ head ≠ before.qTail
  | .storeHead head it =>
    now = before.setSlot head none ∧ head = before.qHead ∧ head ≠ before.qTail ∧
      it = before.slot head
  | .release it => takeItem before = (now, it)

def Frame.Sees (before now : Queue Item) : Frame Item → Prop
  | .enqueue pc => pc.Sees before now
  | .drain pc => pc.Sees before now

/-- Where a call of `run_deferred` stands between whole accesses. -/
def DrainPc.drain : DrainPc Item → Drain Item
  | .holding f => .holding f
  | .running f => .running f
  | _ => .top

/-- The calls of `run_deferred` among those of the main loop. -/
def Frame.drain? : Frame Item → Option (Drain Item)
  | .enqueue _ => none
  | .drain pc => some pc.drain

/-- The record is that of the whole accesses, and with the lock free so is the queue. -/
structure Follows (m : Shared Item) (a : State Item) : Prop where
  calls_eq : a.calls = m.calls
  executed_eq : a.executed = m.executed
  queue_eq : m.qLock = false → a.queue = m.queue

/-- Code that has the lock may do to the queue what it will. -/
theorem Follows.with_queue (h : Follows m a) (hlock : m.qLock = true) (q : Queue Item) :
    Follows { m with queue := q } a :=
  ⟨h.calls_eq, h.executed_eq, fun hfree => absurd (hlock.symm.trans hfree) Bool.noConfusion⟩

theorem enqueue_of_accepted {q : Queue Item} (h : (enqueue q item).2 = true) :
    enqueue q item = ((q.setSlot q.qTail (some item)).storeTail q.qTail, true) := by
  simp only [enqueue] at h ⊢
  split
  · rfl
  · next hfull => simp [hfull] at h

theorem takeItem_of_ne {q : Queue Item} (h : q.qHead ≠ q.qTail) :
    takeItem q = ((q.setSlot q.qHead none).storeHead q.qHead, q.slot q.qHead) := by
  simp only [takeItem, if_pos h]

/-- A step of `enqueue` is no access yet, or with the release of the lock the whole of it. -/
theorem EnqueuePc.simulates (h : Follows m a) (pc : EnqueuePc Item)
    (hlock : pc.locked = true → m.qLock = true)
    (hsees : pc.locked = true → pc.Sees a.queue m.queue) :
    ∃ a', ReflTransGen Step a a' ∧ Follows (pc.step m).1 a' ∧ a'.drains = a.drains ∧
      (∀ pc' ∈ (pc.step m).2, pc'.locked = true → pc'.Sees a'.queue (pc.step m).1.queue) ∧
      (pc.locked = false → a'.queue = a.queue ∧ (pc.step m).1.queue = m.queue) := by
  cases pc with
  | acquire item =>
    refine ⟨a, .refl, ?_⟩
    cases hfree : m.qLock with
    | true => simpa [step, hfree, locked] using h
    | false =>
      simp only [step, hfree, Bool.false_eq_true, if_false]
      refine ⟨⟨h.calls_eq, h.executed_eq, fun h => Bool.noConfusion h⟩, trivial,
        fun pc' hpc _ => ?_, fun _ => ⟨trivial, trivial⟩⟩
      obtain rfl := Option.some.inj hpc
      exact (h.queue_eq hfree).symm
  | loadTail item =>
    refine ⟨a, .refl, h, rfl, fun pc' hpc _ => ?_, fun h => Bool.noConfusion h⟩
    obtain rfl := Option.some.inj hpc
    have hnow : m.queue = a.queue := hsees rfl
    exact ⟨hnow, by rw [hnow]⟩
  | loadHead item tail =>
    obtain ⟨hnow, rfl⟩ := hsees rfl
    have hm : (step m (.loadHead item a.queue.qTail)).1 = m := by
      simp only [step]
      split <;> rfl
    refine ⟨a, .refl, by rwa [hm], rfl, fun pc' hpc _ => ?_, fun h => Bool.noConfusion h⟩
    rw [hm]
    simp only [step, hnow] at hpc
    split at hpc
    · next hroom =>
      obtain rfl := Option.some.inj hpc
      exact ⟨hnow, rfl, by simp only [enqueue, if_pos hroom]⟩
    · next hfull =>
      obtain rfl := Option.some.inj hpc
      simp only [Sees, enqueue, if_neg hfull, hnow]
  | writeSlot item tail =>
    obtain ⟨hnow, htail, hroom⟩ := hsees rfl
    refine ⟨a, .refl, h.with_queue (hlock rfl) _, rfl, fun pc' hpc _ => ?_,
      fun h => Bool.noConfusion h⟩
    obtain rfl := Option.some.inj hpc
    exact ⟨by rw [← hnow]; rfl, htail, hroom⟩
  | storeTail item tail =>
    obtain ⟨hnow, rfl, hroom⟩ := hsees rfl
    refine ⟨a, .refl, h.with_queue (hlock rfl) _, rfl, fun pc' hpc _ => ?_,
      fun h => Bool.noConfusion h⟩
    obtain rfl := Option.some.inj hpc
    simp only [Sees, enqueue_of_accepted hroom, step, hnow]
  | release item accepted =>
    have hwhole : enqueue a.queue item = (m.queue, accepted) := hsees rfl
    refine ⟨_, .single (.enqueue a item), ⟨?_, h.executed_eq, fun _ => ?_⟩, rfl,
      fun pc' hpc => absurd hpc (by simp [step]), fun h => Bool.noConfusion h⟩
    · simp only [hwhole, h.calls_eq, step]
    · simp only [hwhole, step]

/-- A step of `run_deferred` is no access yet, or with the release of the lock the whole of
it, or the call of an item or its return. -/
theorem DrainPc.simulates (h : Follows m a) (pc : DrainPc Item) {ds : List (Drain Item)}
    (hdrains : a.drains = pc.drain :: ds) (hlock : pc.locked = true → m.qLock = true)
    (hsees : pc.locked = true → pc.Sees a.queue m.queue) :
    ∃ a', ReflTransGen Step a a' ∧ Follows (pc.step m).1 a' ∧
      a'.drains = ((pc.step m).2.map drain).toList ++ ds ∧
      (∀ pc' ∈ (pc.step m).2, pc'.locked = true → pc'.Sees a'.queue (pc.step m).1.queue) ∧
      (pc.locked = false → a'.queue = a.queue ∧ (pc.step m).1.queue = m.queue) := by
  cases pc with
  | acquire =>
    refine ⟨a, .refl, ?_⟩
    cases hfree : m.qLock with
    | true => simpa [step, hfree, locked, hdrains] using h
    | false =>
      simp only [step, hfree, Bool.false_eq_true, if_false]
      refine ⟨⟨h.calls_eq, h.executed_eq, fun h => Bool.noConfusion h⟩, hdrains,
        fun pc' hpc _ => ?_, fun _ => ⟨trivial, trivial⟩⟩
      obtain rfl := Option.some.inj hpc
      exact (h.queue_eq hfree).symm
  | loadHead =>
    refine ⟨a, .refl, h, hdrains, fun pc' hpc _ => ?_, fun h => Bool.noConfusion h⟩
    obtain rfl := Option.some.inj hpc
    have hnow : m.queue = a.queue := hsees rfl
    exact ⟨hnow, by rw [hnow]⟩
  | loadTail head =>
    obtain ⟨hnow, rfl⟩ := hsees rfl
    have hm : (step m (.loadTail a.queue.qHead)).1 = m := by
      simp only [step]
      split <;> rfl
    refine ⟨a, .refl, by rwa [hm], ?_, fun pc' hpc _ => ?_, fun h => Bool.noConfusion h⟩
    · simp only [step]
      split <;> exact hdrains
    rw [hm]
    simp only [step, hnow] at hpc
    split at hpc
    · next hne =>
      obtain rfl := Option.some.inj hpc
      exact ⟨hnow, rfl, hne⟩
    · next hempty =>
      obtain rfl := Option.some.inj hpc
      simp only [Sees, takeItem, if_neg hempty, hnow]
  | takeSlot head =>
    obtain ⟨hnow, rfl, hne⟩ := hsees rfl
    refine ⟨a, .refl, h.with_queue (hlock rfl) _, hdrains, fun pc' hpc _ => ?_,
      fun h => Bool.noConfusion h⟩
    obtain rfl := Option.some.inj hpc
    exact ⟨by rw [← hnow]; rfl, rfl, hne, by rw [hnow]⟩
  | storeHead head it =>
    obtain ⟨hnow, rfl, hne, rfl⟩ := hsees rfl
    refine ⟨a, .refl, h.with_queue (hlock rfl) _, hdrains, fun pc' hpc _ => ?_,
      fun h => Bool.noConfusion h⟩
    obtain rfl := Option.some.inj hpc
    simp only [Sees, takeItem_of_ne hne, step, hnow]
  | release it =>
    have hwhole : takeItem a.queue = (m.queue, it) := hsees rfl
    cases it with
    | some f =>
      refine ⟨_, .single (.take a f ds hdrains (by rw [hwhole])),
        ⟨h.calls_eq, h.executed_eq, fun _ => ?_⟩, rfl, fun pc' hpc hlocked => ?_,
        fun h => Bool.noConfusion h⟩
      · simp only [hwhole, step]
      · obtain rfl := Option.some.inj hpc
        exact Bool.noConfusion hlocked
    | none =>
      refine ⟨_, .single (.stop a ds hdrains (by rw [hwhole])),
        ⟨h.calls_eq, h.executed_eq, fun _ => ?_⟩, rfl,
        fun pc' hpc => absurd hpc (by simp [step]), fun h => Bool.noConfusion h⟩
      simp only [hwhole, step]
  | holding f =>
    refine ⟨_, .single (.call a f ds hdrains), ⟨h.calls_eq, ?_, h.queue_eq⟩, rfl,
      fun pc' hpc hlocked => ?_, fun _ => ⟨rfl, rfl⟩⟩
    · simp only [h.executed_eq, step]
    · obtain rfl := Option.some.inj hpc
      exact Bool.noConfusion hlocked
  | running f =>
    refine ⟨_, .single (.ret a f ds hdrains), ⟨h.calls_eq, h.executed_eq, h.queue_eq⟩, rfl,
      fun pc' hpc hlocked => ?_, fun _ => ⟨rfl, rfl⟩⟩
    obtain rfl := Option.some.inj hpc
    exact Bool.noConfusion hlocked

theorem Frame.simulates (h : Follows m a) (frame : Frame Item) {ds : List (Drain Item)}
    (hdrains : a.drains = frame.drain?.toList ++ ds)
    (hlock : frame.locked = true → m.qLock = true)
    (hsees : frame.locked = true → frame.Sees a.queue m.queue) :
    ∃ a', ReflTransGen Step a a' ∧ Follows (frame.step m).1 a' ∧
      a'.drains = (frame.step m).2.toList.filterMap drain? ++ ds ∧
      (∀ frame' ∈ (frame.step m).2, frame'.locked = true →
        frame'.Sees a'.queue (frame.step m).1.queue) ∧
      (frame.locked = false → a'.queue = a.queue ∧ (frame.step m).1.queue = m.queue) := by
  cases frame with
  | enqueue pc =>
    obtain ⟨a', hrun, hfollows, hsame, hnext, hkeep⟩ := pc.simulates h hlock hsees
    refine ⟨a', hrun, hfollows, ?_, fun frame' hframe hlocked => ?_, hkeep⟩
    · rw [hsame, hdrains]
      cases hpc : (pc.step m).2 <;> simp [step, hpc, drain?]
    · obtain ⟨pc', hpc, rfl⟩ := Option.mem_map.mp hframe
      exact hnext pc' hpc hlocked
  | drain pc =>
    obtain ⟨a', hrun, hfollows, hsame, hnext, hkeep⟩ := pc.simulates h hdrains hlock hsees
    refine ⟨a', hrun, hfollows, ?_, fun frame' hframe hlocked => ?_, hkeep⟩
    · rw [hsame]
      cases hpc : (pc.step m).2 <;> simp [step, hpc, drain?]
    · obtain ⟨pc', hpc, rfl⟩ := Option.mem_map.mp hframe
      exact hnext pc' hpc hlocked

namespace Cpu

variable {c c' : Cpu Item}

/-- The state between whole accesses that the processor is in, or is about to leave. -/
structure Simulates (c : Cpu Item) (a : State Item) : Prop where
  follows : Follows c.shared a
  drains_eq : a.drains = c.main.filterMap Frame.drain?
  main_sees : ∀ frame ∈ c.main, frame.locked = true → frame.Sees a.queue c.shared.queue
  isr_sees : ∀ pc ∈ c.isr, pc.locked = true → pc.Sees a.queue c.shared.queue

theorem simulates_start : Simulates (start : Cpu Item) State.start :=
  ⟨⟨rfl, rfl, fun _ => rfl⟩, rfl, fun _ h => absurd h (by simp [start]),
    fun _ h => absurd h (by simp [start])⟩

/-- A call of the main loop that has the lock is the only one. -/
theorem Exclusive.main_alone (h : Exclusive c) {frame : Frame Item} {fs : List (Frame Item)}
    (hmain : c.main = frame :: fs) (hlocked : frame.locked = true) :
    (∀ frame' ∈ fs, frame'.locked = false) ∧ ∀ pc ∈ c.isr, pc.locked = false := by
  have hcount := h.holders_eq
  have hle := Bool.toNat_le c.shared.qLock
  rw [holders, hmain, List.countP_cons_of_pos hlocked] at hcount
  have hfs : fs.countP Frame.locked = 0 := by omega
  have hisr : c.isr.countP EnqueuePc.locked = 0 := by omega
  rw [List.countP_eq_zero] at hfs hisr
  exact ⟨fun frame' hmem => by simpa using hfs frame' hmem,
    fun pc hmem => by simpa using hisr pc hmem⟩

/-- A call of a handler that has the lock is the only one. -/
theorem Exclusive.isr_alone (h : Exclusive c) {pc : EnqueuePc Item}
    {rest : List (EnqueuePc Item)} (hisr : c.isr = pc :: rest) (hlocked : pc.locked = true) :
    (∀ frame ∈ c.main, frame.locked = false) ∧ ∀ pc' ∈ rest, pc'.locked = false := by
  have hcount := h.holders_eq
  have hle := Bool.toNat_le c.shared.qLock
  rw [holders, hisr, List.countP_cons_of_pos hlocked] at hcount
  have hmain : c.main.countP Frame.locked = 0 := by omega
  have hrest : rest.countP EnqueuePc.locked = 0 := by omega
  rw [List.countP_eq_zero] at hmain hrest
  exact ⟨fun frame hmem => by simpa using hmain frame hmem,
    fun pc' hmem => by simpa using hrest pc' hmem⟩

/-- Whatever the processor does next, whole accesses do it. -/
theorem Simulates.step {a : State Item} (h : Simulates c a) (hc : Exclusive c)
    (hstep : Step c c') : ∃ a', ReflTransGen Interrupts.Step a a' ∧ Simulates c' a' := by
  cases hstep with
  | fire items hisr =>
    refine ⟨a, .refl, h.follows, h.drains_eq, h.main_sees, fun pc hpc hlocked => ?_⟩
    obtain ⟨item, -, rfl⟩ := List.mem_map.mp hpc
    exact Bool.noConfusion hlocked
  | handler pc rest hisr =>
    have hmem : pc ∈ c.isr := by simp [hisr]
    obtain ⟨a', hrun, hfollows, hsame, hnext, hkeep⟩ := pc.simulates h.follows
      (hc.lock_of_handler hisr) (h.isr_sees pc hmem)
    refine ⟨a', hrun, hfollows, hsame.trans h.drains_eq, fun frame hframe hlocked => ?_,
      fun pc' hpc' hlocked => ?_⟩
    · cases hpc : pc.locked with
      | true => simp [(hc.isr_alone hisr hpc).1 frame hframe] at hlocked
      | false =>
        dsimp only
        rw [(hkeep hpc).1, (hkeep hpc).2]
        exact h.main_sees frame hframe hlocked
    · rcases List.mem_append.mp hpc' with hpc' | hpc'
      · exact hnext pc' (Option.mem_toList.mp hpc') hlocked
      · cases hpc : pc.locked with
        | true => simp [(hc.isr_alone hisr hpc).2 pc' hpc'] at hlocked
        | false =>
          dsimp only
          rw [(hkeep hpc).1, (hkeep hpc).2]
          exact h.isr_sees pc' (by simp [hisr, hpc']) hlocked
  | main frame fs hisr hmain =>
    have hmem : frame ∈ c.main := by simp [hmain]
    have hdrains : a.drains = frame.drain?.toList ++ fs.filterMap Frame.drain? := by
      rw [h.drains_eq, hmain, List.filterMap_cons]
      cases frame.drain? <;> rfl
    obtain ⟨a', hrun, hfollows, hsame, hnext, hkeep⟩ := frame.simulates h.follows hdrains
      (hc.lock_of_main hmain) (h.main_sees frame hmem)
    refine ⟨a', hrun, hfollows, ?_, fun frame' hframe hlocked => ?_, fun pc' hpc' _ => ?_⟩
    · rw [hsame, List.filterMap_append]
    · rcases List.mem_append.mp hframe with hframe | hframe
      · exact hnext frame' (Option.mem_toList.mp hframe) hlocked
      · cases hpc : frame.locked with
        | true => simp [(hc.main_alone hmain hpc).1 frame' hframe] at hlocked
        | false =>
          dsimp only
          rw [(hkeep hpc).1, (hkeep hpc).2]
          exact h.main_sees frame' (by simp [hmain, hframe]) hlocked
    · simp [hisr] at hpc'
  | callEnqueue item hisr hfree =>
    refine ⟨a, .refl, h.follows, h.drains_eq, fun frame hframe hlocked => ?_, h.isr_sees⟩
    rcases List.mem_cons.mp hframe with rfl | hframe
    · exact Bool.noConfusion hlocked
    · exact h.main_sees frame hframe hlocked
  | runDeferred hisr hfree =>
    have hidle : a.drains = [] ∨ ∃ f ds, a.drains = .running f :: ds := by
      rw [h.drains_eq]
      rcases hfree with hnil | ⟨f, fs, hmain⟩
      · exact .inl (by rw [hnil]; rfl)
      · exact .inr ⟨f, fs.filterMap Frame.drain?, by rw [hmain]; rfl⟩
    refine ⟨_, .single (.start a hidle), ⟨h.follows.calls_eq, h.follows.executed_eq,
      h.follows.queue_eq⟩, ?_, fun frame hframe hlocked => ?_, h.isr_sees⟩
    · rw [h.drains_eq]
      rfl
    · rcases List.mem_cons.mp hframe with rfl | hframe
      · exact Bool.noConfusion hlocked
      · exact h.main_sees frame hframe hlocked

/-- The processor refines the queue of whole accesses. -/
theorem Reachable.simulates (h : Reachable c) :
    ∃ a, Interrupts.Reachable a ∧ Simulates c a := by
  induction h with
  | refl => exact ⟨State.start, .refl, simulates_start⟩
  | tail hrun hstep ih =>
    obtain ⟨a, ha, hsim⟩ := ih
    obtain ⟨a', hstep', hsim'⟩ := hsim.step (Reachable.exclusive hrun) hstep
    exact ⟨a', ha.trans hstep', hsim'⟩

/-- Whenever a handler fires, the items that have been called are the first that were accepted,
in this order. -/
theorem Reachable.executed_prefix (h : Reachable c) :
    c.shared.executed <+: (c.shared.calls.filter Prod.snd).map Prod.fst := by
  obtain ⟨a, ha, hsim⟩ := h.simulates
  obtain ⟨waiting, hfifo⟩ := ha.fifo
  rw [← hsim.follows.executed_eq, ← hsim.follows.calls_eq]
  refine ⟨a.held ++ waiting, ?_⟩
  rw [← List.append_assoc]
  exact hfifo.order.symm

end Cpu

end LionOS.Interrupts
