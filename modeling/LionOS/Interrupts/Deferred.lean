import LionOS.Lib.Ring
import Mathlib.Logic.Relation

/-!
# The deferred work queue

Interrupt handlers put work items into a ring of 64 slots, and `run_deferred` takes them out
in the main loop and calls them. Every access to the ring is made under `Q_LOCK`, so a run of
the system is seen here as a sequence of such accesses: between any two of them, and while an
item is being called, anybody may enqueue. Items are abstract: what an item does to the queue
is that it enqueues more items, or drains the queue itself.

The queue is meant to be a list: `offer` and `List.tail` say what it does.
-/

namespace LionOS.Interrupts

variable {Item : Type} {item f : Item} {xs : List Item}

/-- `QUEUE_CAP`. -/
def queueCap : Nat := 64

/-- `QUEUE`, `Q_HEAD` and `Q_TAIL`. The indices are only stored modulo `QUEUE_CAP`, so
`QUEUE[tail]`, `QUEUE[head]` and the subtraction of `enqueue` cannot panic. -/
structure Queue (Item : Type) where
  queue : List (Option Item)
  qHead : Nat
  qTail : Nat
  length_queue : queue.length = queueCap
  qHead_lt : qHead < queueCap
  qTail_lt : qTail < queueCap

namespace Queue

variable {q : Queue Item}

/-- The initial values of the statics. -/
def new : Queue Item where
  queue := List.replicate queueCap none
  qHead := 0
  qTail := 0
  length_queue := List.length_replicate
  qHead_lt := Nat.succ_pos _
  qTail_lt := Nat.succ_pos _

/-- `QUEUE[i]`. -/
def slot (q : Queue Item) (i : Nat) : Option Item := q.queue[i]?.join

/-- `QUEUE[i] = value`. -/
def setSlot (q : Queue Item) (i : Nat) (value : Option Item) : Queue Item :=
  { q with
    queue := q.queue.set i value
    length_queue := by rw [List.length_set, q.length_queue] }

/-- `Q_HEAD.store((head + 1) % QUEUE_CAP)`. -/
def storeHead (q : Queue Item) (head : Nat) : Queue Item :=
  { q with
    qHead := (head + 1) % queueCap
    qHead_lt := Nat.mod_lt _ (Nat.succ_pos _) }

/-- `Q_TAIL.store((tail + 1) % QUEUE_CAP)`. -/
def storeTail (q : Queue Item) (tail : Nat) : Queue Item :=
  { q with
    qTail := (tail + 1) % queueCap
    qTail_lt := Nat.mod_lt _ (Nat.succ_pos _) }

@[simp] theorem qHead_setSlot (q : Queue Item) (i : Nat) (value : Option Item) :
    (q.setSlot i value).qHead = q.qHead := rfl

@[simp] theorem qTail_setSlot (q : Queue Item) (i : Nat) (value : Option Item) :
    (q.setSlot i value).qTail = q.qTail := rfl

@[simp] theorem qHead_storeHead (q : Queue Item) (head : Nat) :
    (q.storeHead head).qHead = (head + 1) % queueCap := rfl

@[simp] theorem qTail_storeHead (q : Queue Item) (head : Nat) :
    (q.storeHead head).qTail = q.qTail := rfl

@[simp] theorem qHead_storeTail (q : Queue Item) (tail : Nat) :
    (q.storeTail tail).qHead = q.qHead := rfl

@[simp] theorem qTail_storeTail (q : Queue Item) (tail : Nat) :
    (q.storeTail tail).qTail = (tail + 1) % queueCap := rfl

end Queue

/-- `enqueue` while it has `Q_LOCK`: the queue it leaves and its answer. -/
def enqueue (q : Queue Item) (item : Item) : Queue Item × Bool :=
  let tail := q.qTail
  let head := q.qHead
  let len := (queueCap + tail - head) % queueCap
  if len < queueCap - 1 then ((q.setSlot tail (some item)).storeTail tail, true)
  else (q, false)

/-- A turn of the loop of `run_deferred` while it has `Q_LOCK`: the queue it leaves and the
item it comes away with. -/
def takeItem (q : Queue Item) : Queue Item × Option Item :=
  let head := q.qHead
  let tail := q.qTail
  if head ≠ tail then ((q.setSlot head none).storeHead head, q.slot head)
  else (q, none)

/-- What enqueueing is meant to do: the list is full with one item less than it has slots. -/
def offer (xs : List Item) (item : Item) : List Item × Bool :=
  if xs.length < queueCap - 1 then (xs ++ [item], true) else (xs, false)

namespace Queue

variable {q : Queue Item}

/-- The ring holds the items `xs`, in this order, and at least one slot is free. -/
structure Holds (q : Queue Item) (xs : List Item) : Prop where
  lt_cap : xs.length < queueCap
  tail_eq : q.qTail = (q.qHead + xs.length) % queueCap
  queued : Lib.Queued q.queue q.qHead xs

theorem holds_new : (new : Queue Item).Holds [] :=
  ⟨Nat.succ_pos _, rfl, Lib.queued_replicate queueCap 0⟩

/-- The distance `enqueue` computes is the number of items. -/
theorem Holds.len_eq (h : q.Holds xs) : (queueCap + q.qTail - q.qHead) % queueCap = xs.length := by
  rw [h.tail_eq, Lib.ring_length q.qHead_lt h.lt_cap]

theorem Holds.slot_eq (h : q.Holds xs) {i : Nat} (hi : i < queueCap) :
    q.slot ((q.qHead + i) % queueCap) = xs[i]? := by
  have hslot := h.queued i (by rwa [q.length_queue])
  rw [q.length_queue] at hslot
  rw [slot, hslot, Option.join_some]

/-- The items are what is in the slots from `Q_HEAD` on. -/
theorem Holds.unique {ys : List Item} (hx : q.Holds xs) (hy : q.Holds ys) : xs = ys := by
  refine List.ext_getElem? fun i => ?_
  by_cases hi : i < queueCap
  · rw [← hx.slot_eq hi, hy.slot_eq hi]
  · have hxs := hx.lt_cap
    have hys := hy.lt_cap
    rw [List.getElem?_eq_none (by omega), List.getElem?_eq_none (by omega)]

theorem Holds.enqueue (h : q.Holds xs) (item : Item) :
    (enqueue q item).1.Holds (offer xs item).1 ∧ (enqueue q item).2 = (offer xs item).2 := by
  unfold Interrupts.enqueue offer
  simp only [h.len_eq]
  by_cases hroom : xs.length < queueCap - 1
  · simp only [if_pos hroom]
    refine ⟨⟨?_, ?_, ?_⟩, trivial⟩
    · rw [List.length_append, List.length_singleton]
      omega
    · simp only [qTail_storeTail, qHead_storeTail, qHead_setSlot, List.length_append,
        List.length_singleton]
      rw [h.tail_eq, Nat.mod_add_mod, Nat.add_assoc]
    · have hpush := h.queued.push (by rw [q.length_queue]; exact h.lt_cap) item
      rwa [q.length_queue, ← h.tail_eq] at hpush
  · simp only [if_neg hroom]
    exact ⟨h, trivial⟩

theorem Holds.takeItem (h : q.Holds xs) :
    (takeItem q).1.Holds xs.tail ∧ (takeItem q).2 = xs.head? := by
  have hempty : q.qHead = q.qTail ↔ xs.length = 0 := by
    rw [h.tail_eq]
    exact Lib.ring_index_eq_iff q.qHead_lt h.lt_cap
  unfold Interrupts.takeItem
  cases xs with
  | nil =>
    rw [if_neg (not_not.mpr (hempty.mpr rfl))]
    exact ⟨h, rfl⟩
  | cons x xs =>
    have hne : q.qHead ≠ q.qTail := fun heq => Nat.succ_ne_zero _ (hempty.mp heq)
    have hlt := h.lt_cap
    rw [List.length_cons] at hlt
    simp only [if_pos hne, List.tail_cons, List.head?_cons]
    refine ⟨⟨by omega, ?_, ?_⟩, ?_⟩
    · simp only [qTail_storeHead, qTail_setSlot, qHead_storeHead]
      rw [h.tail_eq, List.length_cons, Nat.mod_add_mod, Nat.add_assoc, Nat.add_comm 1]
    · have hhead : q.qHead < q.queue.length := by
        rw [q.length_queue]
        exact q.qHead_lt
      have hlen : xs.length + 1 ≤ q.queue.length := by
        rw [q.length_queue]
        omega
      have hpop := h.queued.pop hhead hlen
      rwa [q.length_queue] at hpop
    · have hfirst := h.slot_eq (i := 0) (by omega)
      rwa [Nat.add_zero, Nat.mod_eq_of_lt q.qHead_lt] at hfirst

end Queue

/-! ## Runs -/

/-- Where a call of `run_deferred` stands: in front of `Q_LOCK`, with an item it has taken,
or in that item. -/
inductive Drain (Item : Type)
  | top
  | holding (f : Item)
  | running (f : Item)
  deriving DecidableEq, Repr

/-- The queue, every call of `enqueue` with its answer, the items that have been called, and
the calls of `run_deferred` on the stack of the main loop, innermost first. -/
structure State (Item : Type) where
  queue : Queue Item
  calls : List (Item × Bool)
  executed : List Item
  drains : List (Drain Item)

namespace State

/-- At boot. -/
def start : State Item := ⟨Queue.new, [], [], []⟩

/-- The items `enqueue` took, in the order it took them. -/
def accepted (s : State Item) : List Item := (s.calls.filter Prod.snd).map Prod.fst

/-- The item that is taken and not called yet. -/
def held (s : State Item) : List Item :=
  match s.drains with
  | .holding f :: _ => [f]
  | _ => []

/-- The items that are accepted and not taken. -/
def pending (s : State Item) : List Item := s.accepted.drop (s.executed ++ s.held).length

end State

/-- One access to the queue, or one step of `run_deferred` outside the lock. `run_deferred` is
called from the main loop only: by nobody else, or by an item that it is itself running. -/
inductive Step : State Item → State Item → Prop
  | enqueue (s : State Item) (item : Item) : Step s
      { s with
        queue := (enqueue s.queue item).1
        calls := s.calls ++ [(item, (enqueue s.queue item).2)] }
  | start (s : State Item) (h : s.drains = [] ∨ ∃ f ds, s.drains = .running f :: ds) :
      Step s { s with drains := .top :: s.drains }
  | take (s : State Item) (f : Item) (ds : List (Drain Item)) (h : s.drains = .top :: ds)
      (hitem : (takeItem s.queue).2 = some f) :
      Step s { s with queue := (takeItem s.queue).1, drains := .holding f :: ds }
  | stop (s : State Item) (ds : List (Drain Item)) (h : s.drains = .top :: ds)
      (hitem : (takeItem s.queue).2 = none) :
      Step s { s with queue := (takeItem s.queue).1, drains := ds }
  | call (s : State Item) (f : Item) (ds : List (Drain Item)) (h : s.drains = .holding f :: ds) :
      Step s { s with executed := s.executed ++ [f], drains := .running f :: ds }
  | ret (s : State Item) (f : Item) (ds : List (Drain Item)) (h : s.drains = .running f :: ds) :
      Step s { s with drains := .top :: ds }

/-- The states any interleaving leads to. -/
def Reachable (s : State Item) : Prop := Relation.ReflTransGen Step State.start s

/-- What is waiting in the ring comes behind what was taken, and only the innermost call of
`run_deferred` is not in an item. -/
structure Fifo (s : State Item) (waiting : List Item) : Prop where
  holds : s.queue.Holds waiting
  order : s.accepted = s.executed ++ s.held ++ waiting
  inner : ∀ d ds, s.drains = d :: ds → ∀ e ∈ ds, ∃ f, e = .running f

variable {s s' : State Item} {waiting : List Item}

namespace State

theorem held_of_top {ds : List (Drain Item)} (h : s.drains = .top :: ds) : s.held = [] := by
  simp only [held, h]

theorem held_of_running {ds : List (Drain Item)} (h : s.drains = .running f :: ds) :
    s.held = [] := by
  simp only [held, h]

theorem held_of_holding {ds : List (Drain Item)} (h : s.drains = .holding f :: ds) :
    s.held = [f] := by
  simp only [held, h]

theorem accepted_append (s : State Item) (item : Item) (ok : Bool) (q : Queue Item) :
    ({ s with queue := q, calls := s.calls ++ [(item, ok)] } : State Item).accepted =
      s.accepted ++ if ok then [item] else [] := by
  cases ok <;> simp [accepted]

theorem held_of_forall (h : ∀ e ∈ s.drains, ∃ f, e = .running f) : s.held = [] := by
  cases hds : s.drains with
  | nil => simp only [held, hds]
  | cons d ds =>
    obtain ⟨f, rfl⟩ := h d (hds ▸ List.mem_cons_self)
    exact held_of_running hds

end State

theorem fifo_start : Fifo (State.start : State Item) [] :=
  ⟨Queue.holds_new, rfl, fun _ _ h => absurd h (by simp [State.start])⟩

theorem Fifo.pending_eq (h : Fifo s waiting) : s.pending = waiting := by
  rw [State.pending, h.order, List.drop_left]

theorem Fifo.enqueue (h : Fifo s waiting) (item : Item) :
    Fifo { s with
      queue := (enqueue s.queue item).1
      calls := s.calls ++ [(item, (enqueue s.queue item).2)] } (offer waiting item).1 := by
  obtain ⟨hholds, hok⟩ := h.holds.enqueue item
  refine ⟨hholds, ?_, h.inner⟩
  rw [State.accepted_append, h.order, hok]
  show _ = s.executed ++ s.held ++ (offer waiting item).1
  unfold offer
  split
  · rw [if_pos rfl, List.append_assoc _ waiting]
  · rw [if_neg Bool.false_ne_true, List.append_nil]

/-- Whoever comes next, the order is kept. -/
theorem Fifo.step (h : Fifo s waiting) (hstep : Step s s') : ∃ rest, Fifo s' rest := by
  cases hstep with
  | enqueue item => exact ⟨_, h.enqueue item⟩
  | start hidle =>
    have hrunning : ∀ e ∈ s.drains, ∃ f, e = .running f := by
      rcases hidle with hnil | ⟨f, ds, hds⟩
      · simp [hnil]
      · intro e he
        rw [hds] at he
        rcases List.mem_cons.mp he with rfl | he
        · exact ⟨f, rfl⟩
        · exact h.inner _ ds hds e he
    refine ⟨waiting, h.holds, ?_, ?_⟩
    · have horder := h.order
      rw [State.held_of_forall hrunning] at horder
      exact horder
    · intro d ds hds
      obtain ⟨-, rfl⟩ := List.cons.inj hds
      exact hrunning
  | take f ds hds hitem =>
    obtain ⟨hholds, hhead⟩ := h.holds.takeItem
    rw [hitem] at hhead
    obtain ⟨rest, rfl⟩ := List.head?_eq_some_iff.mp hhead.symm
    refine ⟨rest, hholds, ?_, fun d ds' hds' => ?_⟩
    · have horder := h.order
      rw [State.held_of_top hds, List.append_nil] at horder
      show s.accepted = s.executed ++ [f] ++ rest
      rw [horder, List.append_assoc, List.singleton_append]
    · obtain ⟨-, rfl⟩ := List.cons.inj hds'
      exact h.inner _ _ hds
  | stop ds hds hitem =>
    obtain ⟨hholds, hhead⟩ := h.holds.takeItem
    rw [hitem] at hhead
    obtain rfl := List.head?_eq_none_iff.mp hhead.symm
    refine ⟨[], hholds, ?_, fun d ds' hds' e he => ?_⟩
    · have horder := h.order
      rw [State.held_of_top hds] at horder
      have hheld := State.held_of_forall
        (s := { s with queue := (takeItem s.queue).1, drains := ds }) (h.inner _ _ hds)
      rw [hheld]
      exact horder
    · subst hds'
      exact h.inner _ _ hds e (List.mem_cons_of_mem _ he)
  | call f ds hds =>
    refine ⟨waiting, h.holds, ?_, fun d ds' hds' => ?_⟩
    · have horder := h.order
      rw [State.held_of_holding hds] at horder
      show s.accepted = s.executed ++ [f] ++ [] ++ waiting
      rw [horder, List.append_nil]
    · obtain ⟨-, rfl⟩ := List.cons.inj hds'
      exact h.inner _ _ hds
  | ret f ds hds =>
    refine ⟨waiting, h.holds, ?_, fun d ds' hds' => ?_⟩
    · have horder := h.order
      rw [State.held_of_running hds] at horder
      exact horder
    · obtain ⟨-, rfl⟩ := List.cons.inj hds'
      exact h.inner _ _ hds

theorem Reachable.fifo (h : Reachable s) : ∃ waiting, Fifo s waiting := by
  induction h with
  | refl => exact ⟨[], fifo_start⟩
  | tail _ hstep ih =>
    obtain ⟨waiting, hfifo⟩ := ih
    exact hfifo.step hstep

/-- A call of `run_deferred` that is let alone calls every waiting item and returns. -/
theorem Fifo.exists_drained (h : Fifo s waiting) {ds : List (Drain Item)}
    (hds : s.drains = .top :: ds) :
    ∃ s', Relation.ReflTransGen Step s s' ∧ s'.calls = s.calls ∧ s'.executed = s.accepted ∧
      s'.drains = ds := by
  induction waiting generalizing s with
  | nil =>
    have hitem : (takeItem s.queue).2 = none := h.holds.takeItem.2
    refine ⟨_, .single (.stop s ds hds hitem), rfl, ?_, rfl⟩
    have horder := h.order
    rw [State.held_of_top hds, List.append_nil, List.append_nil] at horder
    exact horder.symm
  | cons x rest ih =>
    have hitem : (takeItem s.queue).2 = some x := h.holds.takeItem.2
    have htake := Step.take s x ds hds hitem
    have hcall := Step.call
      { s with queue := (takeItem s.queue).1, drains := .holding x :: ds } x ds rfl
    have hret := Step.ret
      { s with
        queue := (takeItem s.queue).1
        executed := s.executed ++ [x]
        drains := .running x :: ds } x ds rfl
    have hnext : Fifo { s with
        queue := (takeItem s.queue).1, executed := s.executed ++ [x], drains := .top :: ds }
        rest := by
      refine ⟨h.holds.takeItem.1, ?_, fun d ds' hds' => ?_⟩
      · have horder := h.order
        rw [State.held_of_top hds] at horder
        show s.accepted = s.executed ++ [x] ++ [] ++ rest
        rw [horder, List.append_nil, List.append_nil, List.append_assoc,
          List.singleton_append]
      · obtain ⟨-, rfl⟩ := List.cons.inj hds'
        exact h.inner _ _ hds
    obtain ⟨s', hrun, hcalls, hexecuted, hdrains⟩ := ih hnext rfl
    exact ⟨s', .head htake (.head hcall (.head hret hrun)), hcalls, hexecuted, hdrains⟩

/-- Wherever the main loop is, it can come to call everything that is accepted. -/
theorem Fifo.exists_executed (h : Fifo s waiting) :
    ∃ s', Relation.ReflTransGen Step s s' ∧ s'.calls = s.calls ∧
      s'.executed = s.accepted := by
  have htop : ∃ s₁ ds, Relation.ReflTransGen Step s s₁ ∧ s₁.calls = s.calls ∧
      s₁.drains = .top :: ds := by
    cases hds : s.drains with
    | nil => exact ⟨_, [], .single (.start s (.inl hds)), rfl, by rw [hds]⟩
    | cons d ds =>
      cases d with
      | top => exact ⟨s, ds, .refl, rfl, hds⟩
      | holding f =>
        exact ⟨_, ds, .head (.call s f ds hds) (.single (.ret _ f ds rfl)), rfl, rfl⟩
      | running f => exact ⟨_, ds, .single (.ret s f ds hds), rfl, rfl⟩
  obtain ⟨s₁, ds, hrun₁, hcalls₁, hds₁⟩ := htop
  obtain ⟨rest, hfifo⟩ : ∃ rest, Fifo s₁ rest := by
    clear hcalls₁ hds₁
    induction hrun₁ with
    | refl => exact ⟨waiting, h⟩
    | tail _ hstep ih =>
      obtain ⟨rest, hrest⟩ := ih
      exact hrest.step hstep
  obtain ⟨s₂, hrun₂, hcalls₂, hexecuted, -⟩ := hfifo.exists_drained hds₁
  refine ⟨s₂, hrun₁.trans hrun₂, hcalls₂.trans hcalls₁, ?_⟩
  rw [hexecuted, State.accepted, hcalls₁, State.accepted]

/-- What the queue promises, of one state of the system. -/
structure ExactFifo (s : State Item) : Prop where
  accepts : ∀ item, (enqueue s.queue item).2 = true ↔ s.pending.length < 63
  order : s.accepted = s.executed ++ s.held ++ s.pending
  rejected : ∀ item, (∀ ok, (item, ok) ∈ s.calls → ok = false) → item ∉ s.executed
  slot_eq : ∀ i < queueCap, s.queue.slot ((s.queue.qHead + i) % queueCap) = s.pending[i]?
  tail_eq : s.queue.qTail = (s.queue.qHead + s.pending.length) % queueCap
  outside : ∀ k < queueCap, (queueCap + s.queue.qTail - s.queue.qHead) % queueCap ≤
    (queueCap + k - s.queue.qHead) % queueCap → s.queue.slot k = none
  next : (takeItem s.queue).2 = s.pending.head?
  stopped : ∀ ds, s.drains = .top :: ds → (takeItem s.queue).2 = none →
    s.executed = s.accepted
  executed : ∃ s', Relation.ReflTransGen Step s s' ∧ s'.calls = s.calls ∧
    s'.executed = s.accepted

theorem offer_snd (xs : List Item) (item : Item) : (offer xs item).2 = true ↔ xs.length < 63 := by
  unfold offer queueCap
  by_cases hroom : xs.length < 63
  · simp [hroom]
  · simp [hroom]

/-- The deferred queue is a bounded first-in first-out queue, in whatever order its users come. -/
theorem exactFifo_of_reachable (s : State Item) (h : Reachable s) : ExactFifo s := by
  obtain ⟨waiting, hfifo⟩ := h.fifo
  have hpending := hfifo.pending_eq
  have hholds : s.queue.Holds s.pending := hpending ▸ hfifo.holds
  have horder : s.accepted = s.executed ++ s.held ++ s.pending := hpending ▸ hfifo.order
  refine ⟨?_, horder, ?_, fun i hi => hholds.slot_eq hi, hholds.tail_eq, ?_, hholds.takeItem.2,
    ?_, hfifo.exists_executed⟩
  · intro item
    rw [(hholds.enqueue item).2, offer_snd]
  · intro item hrejected hmem
    have haccepted : item ∈ s.accepted := by
      rw [horder, List.append_assoc]
      exact List.mem_append_left _ hmem
    obtain ⟨⟨x, ok⟩, hcall, rfl⟩ := List.mem_map.mp haccepted
    obtain ⟨hcall, hok⟩ := List.mem_filter.mp hcall
    exact Bool.false_ne_true ((hrejected ok hcall).symm.trans hok)
  · intro k hk hfar
    obtain ⟨i, hi, rfl⟩ := Lib.exists_ring_index s.queue.qHead hk
    rw [hholds.len_eq, Lib.ring_length s.queue.qHead_lt hi] at hfar
    rw [hholds.slot_eq hi, List.getElem?_eq_none hfar]
  · intro ds hds hitem
    rw [hholds.takeItem.2] at hitem
    rw [horder, List.head?_eq_none_iff.mp hitem, State.held_of_top hds, List.append_nil,
      List.append_nil]

/-- An item is enqueued, `run_deferred` calls it, and it enqueues another one. -/
theorem exactFifo_of_reachable_seven : ExactFifo
    { queue := (enqueue (takeItem (enqueue Queue.new 7).1).1 8).1
      calls := [(7, true), (8, true)]
      executed := [7]
      drains := [.running 7] : State Nat } := by
  let one := (enqueue (Queue.new : Queue Nat) 7).1
  have henqueue : Step State.start ⟨one, [(7, true)], [], []⟩ := .enqueue State.start 7
  have hstart := Step.start ⟨one, [(7, true)], [], []⟩ (.inl rfl)
  have htake := Step.take ⟨one, [(7, true)], [], [.top]⟩ 7 [] rfl rfl
  have hcall := Step.call ⟨(takeItem one).1, [(7, true)], [], [.holding 7]⟩ 7 [] rfl
  have hroom : (enqueue (takeItem one).1 8).2 = true := by decide
  have hagain := Step.enqueue ⟨(takeItem one).1, [(7, true)], [7], [.running 7]⟩ 8
  simp only [hroom] at hagain
  exact exactFifo_of_reachable _
    (.head henqueue (.head hstart (.head htake (.head hcall (.single hagain)))))

end LionOS.Interrupts
