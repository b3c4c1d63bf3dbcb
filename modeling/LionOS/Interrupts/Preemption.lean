import LionOS.Interrupts.Deferred

/-!
# Preemption of the deferred queue

The queue under its lock, one access to shared memory at a time. There is one processor: the
main loop runs `run_deferred` and the items it calls, with interrupts enabled, and between any
two of its steps a handler may fire, which calls `enqueue` for its items and runs to its end
before the main loop goes on. Interrupt gates clear `IF`, so handlers do not nest.

`Q_LOCK` keeps the accesses of the two sides apart, but a handler that finds it taken waits for
code that cannot run before the handler is done.
-/

namespace LionOS.Interrupts

variable {Item : Type} {item f : Item}

/-- What all code shares: the statics, and the record of what was enqueued and called. -/
structure Shared (Item : Type) where
  queue : Queue Item
  qLock : Bool
  calls : List (Item × Bool)
  executed : List Item

/-- Where a call of `enqueue` stands, with the locals it still needs. -/
inductive EnqueuePc (Item : Type)
  | acquire (item : Item)
  | loadTail (item : Item)
  | loadHead (item : Item) (tail : Nat)
  | writeSlot (item : Item) (tail : Nat)
  | storeTail (item : Item) (tail : Nat)
  | release (item : Item) (accepted : Bool)
  deriving DecidableEq, Repr

/-- Where a call of `run_deferred` stands. -/
inductive DrainPc (Item : Type)
  | acquire
  | loadHead
  | loadTail (head : Nat)
  | takeSlot (head : Nat)
  | storeHead (head : Nat) (it : Option Item)
  | release (item : Option Item)
  | holding (f : Item)
  | running (f : Item)
  deriving DecidableEq, Repr

/-- One step of `enqueue`, which returns from its last. -/
def EnqueuePc.step (m : Shared Item) : EnqueuePc Item → Shared Item × Option (EnqueuePc Item)
  -- `compare_exchange` fails while the lock is taken, and the loop tries again.
  | .acquire item =>
    if m.qLock then (m, some (.acquire item))
    else ({ m with qLock := true }, some (.loadTail item))
  | .loadTail item => (m, some (.loadHead item m.queue.qTail))
  | .loadHead item tail =>
    let len := (queueCap + tail - m.queue.qHead) % queueCap
    if len < queueCap - 1 then (m, some (.writeSlot item tail))
    else (m, some (.release item false))
  | .writeSlot item tail =>
    ({ m with queue := m.queue.setSlot tail (some item) }, some (.storeTail item tail))
  | .storeTail item tail =>
    ({ m with queue := m.queue.storeTail tail }, some (.release item true))
  | .release item accepted =>
    ({ m with qLock := false, calls := m.calls ++ [(item, accepted)] }, none)

/-- One step of `run_deferred`. An item it has called may return at any time. -/
def DrainPc.step (m : Shared Item) : DrainPc Item → Shared Item × Option (DrainPc Item)
  | .acquire =>
    if m.qLock then (m, some .acquire) else ({ m with qLock := true }, some .loadHead)
  | .loadHead => (m, some (.loadTail m.queue.qHead))
  | .loadTail head =>
    if head ≠ m.queue.qTail then (m, some (.takeSlot head)) else (m, some (.release none))
  | .takeSlot head =>
    ({ m with queue := m.queue.setSlot head none }, some (.storeHead head (m.queue.slot head)))
  | .storeHead head it => ({ m with queue := m.queue.storeHead head }, some (.release it))
  | .release (some f) => ({ m with qLock := false }, some (.holding f))
  | .release none => ({ m with qLock := false }, none)
  | .holding f => ({ m with executed := m.executed ++ [f] }, some (.running f))
  | .running _ => (m, some .acquire)

/-- A call on the stack of the main loop. -/
inductive Frame (Item : Type)
  | enqueue (pc : EnqueuePc Item)
  | drain (pc : DrainPc Item)
  deriving DecidableEq, Repr

/-- One step of a call, which is left with its last. -/
def Frame.step (m : Shared Item) : Frame Item → Shared Item × Option (Frame Item)
  | .enqueue pc => ((pc.step m).1, (pc.step m).2.map .enqueue)
  | .drain pc => ((pc.step m).1, (pc.step m).2.map .drain)

/-- The processor: the calls of the main loop, innermost first, and the calls that the handler
which interrupted it has still to make, the current one first. -/
structure Cpu (Item : Type) where
  shared : Shared Item
  main : List (Frame Item)
  isr : List (EnqueuePc Item)

namespace Cpu

/-- At the end of `interrupts::init`. -/
def start : Cpu Item := ⟨⟨Queue.new, false, [], []⟩, [], []⟩

/-- The main loop is not in the queue's code: it is in none of its functions, or in an item. -/
def Free (c : Cpu Item) : Prop := c.main = [] ∨ ∃ f fs, c.main = .drain (.running f) :: fs

/-- One step of the processor. -/
inductive Step : Cpu Item → Cpu Item → Prop
  | fire (c : Cpu Item) (items : List Item) (hisr : c.isr = []) :
      Step c { c with isr := items.map .acquire }
  | handler (c : Cpu Item) (pc : EnqueuePc Item) (rest : List (EnqueuePc Item))
      (hisr : c.isr = pc :: rest) :
      Step c { c with shared := (pc.step c.shared).1, isr := (pc.step c.shared).2.toList ++ rest }
  | main (c : Cpu Item) (frame : Frame Item) (fs : List (Frame Item)) (hisr : c.isr = [])
      (hmain : c.main = frame :: fs) :
      Step c { c with
        shared := (frame.step c.shared).1, main := (frame.step c.shared).2.toList ++ fs }
  | callEnqueue (c : Cpu Item) (item : Item) (hisr : c.isr = []) (hfree : c.Free) :
      Step c { c with main := .enqueue (.acquire item) :: c.main }
  | runDeferred (c : Cpu Item) (hisr : c.isr = []) (hfree : c.Free) :
      Step c { c with main := .drain .acquire :: c.main }

/-- The states any run leads to. -/
def Reachable (c : Cpu Item) : Prop := Relation.ReflTransGen Step start c

end Cpu

/-- The call is between its successful `compare_exchange` and its release of the lock. -/
def EnqueuePc.locked : EnqueuePc Item → Bool
  | .acquire _ => false
  | _ => true

/-- The call is between its successful `compare_exchange` and its release of the lock. -/
def DrainPc.locked : DrainPc Item → Bool
  | .acquire | .holding _ | .running _ => false
  | _ => true

def Frame.locked : Frame Item → Bool
  | .enqueue pc => pc.locked
  | .drain pc => pc.locked

theorem countP_toList {α : Type} (p : α → Bool) (o : Option α) :
    o.toList.countP p = (o.any p).toNat := by
  cases o with
  | none => rfl
  | some a => cases h : p a <;> simp [h]

/-- A step takes the lock when it is free and gives it back when it has it. -/
theorem EnqueuePc.step_lock (m : Shared Item) (pc : EnqueuePc Item)
    (h : pc.locked = true → m.qLock = true) :
    ((pc.step m).2.any locked).toNat + m.qLock.toNat =
      pc.locked.toNat + (pc.step m).1.qLock.toNat := by
  cases pc with
  | acquire item => cases hlock : m.qLock <;> simp [step, locked, hlock]
  | loadHead item tail => simp only [step]; split <;> simp [locked]
  | release item accepted => simp [step, locked, h rfl]
  | _ => simp [step, locked]

theorem DrainPc.step_lock (m : Shared Item) (pc : DrainPc Item)
    (h : pc.locked = true → m.qLock = true) :
    ((pc.step m).2.any locked).toNat + m.qLock.toNat =
      pc.locked.toNat + (pc.step m).1.qLock.toNat := by
  cases pc with
  | acquire => cases hlock : m.qLock <;> simp [step, locked, hlock]
  | loadTail head => simp only [step]; split <;> simp [locked]
  | release item => cases item <;> simp [step, locked, h rfl]
  | _ => simp [step, locked]

theorem Frame.step_lock (m : Shared Item) (frame : Frame Item)
    (h : frame.locked = true → m.qLock = true) :
    ((frame.step m).2.any locked).toNat + m.qLock.toNat =
      frame.locked.toNat + (frame.step m).1.qLock.toNat := by
  cases frame with
  | enqueue pc =>
    simp only [step, Option.any_map]
    exact pc.step_lock m h
  | drain pc =>
    simp only [step, Option.any_map]
    exact pc.step_lock m h

namespace Cpu

variable {c c' : Cpu Item}

/-- The calls that have the lock. -/
def holders (c : Cpu Item) : Nat := c.main.countP Frame.locked + c.isr.countP EnqueuePc.locked

/-- The lock is taken exactly when one call has it, and of the calls of a handler that is the
current one. -/
structure Exclusive (c : Cpu Item) : Prop where
  holders_eq : c.holders = c.shared.qLock.toNat
  waiting : ∀ pc ∈ c.isr.tail, ∃ item, pc = .acquire item

theorem exclusive_start : Exclusive (start : Cpu Item) :=
  ⟨rfl, fun _ h => absurd h (by simp [start])⟩

theorem Exclusive.lock_eq_true (h : Exclusive c) (hpos : 0 < c.holders) :
    c.shared.qLock = true := by
  cases hlock : c.shared.qLock with
  | true => rfl
  | false =>
    have hzero := h.holders_eq
    rw [hlock, Bool.toNat_false] at hzero
    omega

/-- A call of a handler that has the lock has taken it. -/
theorem Exclusive.lock_of_handler (h : Exclusive c) {pc : EnqueuePc Item}
    {rest : List (EnqueuePc Item)} (hisr : c.isr = pc :: rest) (hlocked : pc.locked = true) :
    c.shared.qLock = true := by
  refine h.lock_eq_true ?_
  rw [holders, hisr, List.countP_cons_of_pos hlocked]
  omega

theorem Exclusive.lock_of_main (h : Exclusive c) {frame : Frame Item} {fs : List (Frame Item)}
    (hmain : c.main = frame :: fs) (hlocked : frame.locked = true) : c.shared.qLock = true := by
  refine h.lock_eq_true ?_
  rw [holders, hmain, List.countP_cons_of_pos hlocked]
  omega

theorem Exclusive.step (h : Exclusive c) (hstep : Step c c') : Exclusive c' := by
  have hcount := h.holders_eq
  unfold holders at hcount
  cases hstep with
  | fire items hisr =>
    refine ⟨?_, fun pc hpc => ?_⟩
    · have hnone : (items.map EnqueuePc.acquire).countP EnqueuePc.locked = 0 := by
        rw [List.countP_map, List.countP_eq_zero]
        exact fun _ _ => Bool.false_ne_true
      rw [hisr] at hcount
      rw [holders, hnone]
      exact hcount
    · obtain ⟨item, -, rfl⟩ := List.mem_map.mp (List.mem_of_mem_tail hpc)
      exact ⟨item, rfl⟩
  | handler pc rest hisr =>
    have hwaiting : ∀ pc ∈ rest, ∃ item, pc = .acquire item := by
      have htail := h.waiting
      rwa [hisr] at htail
    refine ⟨?_, fun pc' hpc => hwaiting pc' ?_⟩
    · have hlock := EnqueuePc.step_lock c.shared pc (h.lock_of_handler hisr)
      simp only [hisr, List.countP_cons] at hcount
      simp only [holders, List.countP_append, countP_toList]
      cases hpc : pc.locked <;> simp [hpc] at hcount hlock <;> omega
    · dsimp only at hpc
      cases hnext : (pc.step c.shared).2 with
      | none =>
        rw [hnext] at hpc
        exact List.mem_of_mem_tail hpc
      | some next =>
        rw [hnext] at hpc
        exact hpc
  | main frame fs hisr hmain =>
    refine ⟨?_, h.waiting⟩
    have hlock := frame.step_lock c.shared (h.lock_of_main hmain)
    simp only [hmain, List.countP_cons] at hcount
    simp only [holders, List.countP_append, countP_toList]
    cases hframe : frame.locked <;> simp [hframe] at hcount hlock <;> omega
  | callEnqueue item hisr hfree => exact ⟨hcount, h.waiting⟩
  | runDeferred hisr hfree => exact ⟨hcount, h.waiting⟩

theorem Reachable.exclusive (h : Reachable c) : Exclusive c := by
  induction h with
  | refl => exact exclusive_start
  | tail _ hstep ih => exact ih.step hstep

/-- The interrupted `run_deferred` has the lock. -/
def DrainHolds (c : Cpu Item) : Prop := ∃ pc, .drain pc ∈ c.main ∧ pc.locked = true

/-- The interrupted code has the lock, in `run_deferred` or in an `enqueue` of the main loop. -/
def MainHolds (c : Cpu Item) : Prop := ∃ frame ∈ c.main, frame.locked = true

/-- A handler is at the `compare_exchange` of `enqueue`, and it fails. -/
def Spins (c : Cpu Item) : Prop :=
  ∃ item rest, c.isr = .acquire item :: rest ∧ c.shared.qLock = true

/-- A handler that enqueues an item fires. -/
def Fires (c c' : Cpu Item) : Prop := c.isr = [] ∧ c'.isr ≠ []

/-- The runs in which a handler that enqueues an item only fires in states that satisfy `p`. -/
def FiresWhen (p : Cpu Item → Prop) (c : Cpu Item) : Prop :=
  Relation.ReflTransGen (fun c c' => Step c c' ∧ (Fires c c' → p c)) start c

theorem DrainHolds.mainHolds (h : DrainHolds c) : MainHolds c := by
  obtain ⟨pc, hmem, hlocked⟩ := h
  exact ⟨_, hmem, hlocked⟩

theorem MainHolds.holders_pos (h : MainHolds c) : 0 < c.main.countP Frame.locked :=
  List.countP_pos_iff.mpr h

theorem FiresWhen.reachable {p : Cpu Item → Prop} (h : FiresWhen p c) : Reachable c :=
  Relation.ReflTransGen.mono (fun _ _ hstep => hstep.1) _ _ h

/-- While a handler runs, the main loop stays where it was when the handler fired. -/
theorem FiresWhen.of_isr {p : List (Frame Item) → Prop} (h : FiresWhen (fun c => p c.main) c)
    (hisr : c.isr ≠ []) : p c.main := by
  induction h with
  | refl => exact absurd rfl hisr
  | @tail b d _ hstep ih =>
    obtain ⟨hstep, hfires⟩ := hstep
    have hmain : d.main = b.main := by
      cases hstep with
      | fire => rfl
      | handler => rfl
      | main _ _ hb => exact absurd hb hisr
      | callEnqueue _ hb => exact absurd hb hisr
      | runDeferred hb => exact absurd hb hisr
    rw [hmain]
    by_cases hb : b.isr = []
    · exact hfires ⟨hb, hisr⟩
    · exact ih hb

/-- A handler that spins has nobody to wait for but the code it interrupted, and every step
from there on is another failed attempt. -/
theorem Spins.eq_of_reaches (h : Spins c) (hrun : Relation.ReflTransGen Step c c') : c' = c := by
  induction hrun with
  | refl => rfl
  | @tail b d _ hstep ih =>
    rw [ih] at hstep
    obtain ⟨item, rest, hisr, hlock⟩ := h
    cases hstep with
    | fire items hnone => simp [hisr] at hnone
    | handler pc rest' hcons =>
      obtain ⟨rfl, rfl⟩ := List.cons.inj (hisr.symm.trans hcons)
      have hpc : EnqueuePc.step c.shared (.acquire item) = (c.shared, some (.acquire item)) := by
        simp only [EnqueuePc.step, if_pos hlock]
      simp only [hpc, Option.toList_some, List.singleton_append, ← hisr]
    | main _ _ hnone => simp [hisr] at hnone
    | callEnqueue _ hnone => simp [hisr] at hnone
    | runDeferred hnone => simp [hisr] at hnone

/-- A handler that enqueues an item while `run_deferred` has the lock spins for ever. -/
theorem DrainHolds.spins (hc : Reachable c) (h : DrainHolds c) (item : Item)
    (items : List Item) : Spins { c with isr := (item :: items).map .acquire } := by
  refine ⟨item, items.map .acquire, rfl, hc.exclusive.lock_eq_true ?_⟩
  have hpos := h.mainHolds.holders_pos
  unfold holders
  omega

/-- With the lock free of the main loop, a handler takes it at its first attempt. -/
theorem Exclusive.not_spins (h : Exclusive c) (hmain : ¬ MainHolds c) : ¬ Spins c := by
  rintro ⟨item, rest, hisr, hlock⟩
  have hfree : c.main.countP Frame.locked = 0 := by
    rw [List.countP_eq_zero]
    exact fun frame hmem hlocked => hmain ⟨frame, hmem, hlocked⟩
  have hrest : rest.countP EnqueuePc.locked = 0 := by
    rw [List.countP_eq_zero]
    intro pc hpc
    obtain ⟨item', rfl⟩ := h.waiting pc (by rwa [hisr])
    exact Bool.false_ne_true
  have hcount := h.holders_eq
  rw [holders, hfree, hisr, List.countP_cons_of_neg Bool.false_ne_true, hrest, hlock] at hcount
  exact Nat.zero_ne_one hcount

/-- No handler waits for the `run_deferred` it interrupted, as long as none that enqueues an
item fires while that has the lock, and none waits at all when the same holds of the `enqueue`
calls of the main loop. One that does fire there never comes to its end. -/
theorem isr_never_waits_of_fires_unlocked :
    (∀ c : Cpu Item, FiresWhen (fun c => ¬ c.DrainHolds) c → ¬ (c.Spins ∧ c.DrainHolds)) ∧
    (∀ c : Cpu Item, FiresWhen (fun c => ¬ c.MainHolds) c → ¬ c.Spins) ∧
    ∀ c : Cpu Item, Reachable c → c.DrainHolds → ∀ item items c',
      Relation.ReflTransGen Step { c with isr := (item :: items).map .acquire } c' →
      c'.Spins ∧ c'.DrainHolds := by
  refine ⟨fun c h => ?_, fun c h hspins => ?_, fun c hc hholds item items c' hrun => ?_⟩
  · rintro ⟨⟨item, rest, hisr, -⟩, hholds⟩
    have hisr' : c.isr ≠ [] := by simp [hisr]
    have hfree := h.of_isr
      (p := fun main => ¬ ∃ pc, Frame.drain pc ∈ main ∧ pc.locked = true) hisr'
    exact hfree hholds
  · obtain ⟨item, rest, hisr, -⟩ := id hspins
    have hisr' : c.isr ≠ [] := by simp [hisr]
    have hfree := h.of_isr (p := fun main => ¬ ∃ frame ∈ main, frame.locked = true) hisr'
    exact h.reachable.exclusive.not_spins hfree hspins
  · have hspins := hholds.spins hc item items
    rw [hspins.eq_of_reaches hrun]
    exact ⟨hspins, hholds⟩

/-- A handler fires right after `run_deferred` took the lock. -/
theorem exists_isr_waits :
    ¬ ∀ c : Cpu Nat, Reachable c → ¬ (c.Spins ∧ c.DrainHolds) := by
  intro h
  have hcall : Step (start : Cpu Nat) ⟨start.shared, [.drain .acquire], []⟩ :=
    .runDeferred start rfl (.inl rfl)
  have hlock : Step (⟨start.shared, [.drain .acquire], []⟩ : Cpu Nat)
      ⟨{ start.shared with qLock := true }, [.drain .loadHead], []⟩ :=
    .main ⟨start.shared, [.drain .acquire], []⟩ (.drain .acquire) [] rfl rfl
  have hreach := (Relation.ReflTransGen.single hcall).tail hlock
  have hholds : DrainHolds
      (⟨{ start.shared with qLock := true }, [.drain .loadHead], []⟩ : Cpu Nat) :=
    ⟨.loadHead, List.mem_singleton_self _, rfl⟩
  exact h _ (hreach.tail (.fire _ [7] rfl)) ⟨hholds.spins hreach 7 [], hholds⟩

end Cpu

end LionOS.Interrupts
