import LionOS.Virtio.Queue

/-!
# Publication order

`xfer` stores `avail.idx` before the ring slot it makes visible. Between the two stores the
device can follow a slot that has not been written; after a whole turn of the ring all slots
hold what earlier requests wrote. So what the device can follow depends on what the frames
held at the start.
-/

namespace LionOS.Virtio

variable {q : Queue} {disk : Nat → Nat → UInt8} {may : Sys → Prop} {s s' : Sys} {m : Shared}

/-- Descriptors 0 to 2 hold the chain of the request. -/
def Chained (q : Queue) (m : Shared) : Prop :=
  m.desc 0 = ⟨q.buf, 16, descFNext, 1⟩ ∧
    m.desc 1 = ⟨q.buf + 512, 512, descFWrite ||| descFNext, 2⟩ ∧
    m.desc 2 = ⟨q.buf + 1024, 1, descFWrite, 0⟩

/-- Entry `i` of the avail ring is published and the device has not fetched it yet. -/
def Sys.Offers (s : Sys) (i : UInt16) : Prop := (i - s.seen).toNat < (s.mem.availIdx - s.seen).toNat

instance (s : Sys) (i : UInt16) : Decidable (s.Offers i) :=
  inferInstanceAs (Decidable ((i - s.seen).toNat < (s.mem.availIdx - s.seen).toNat))

/-- Every entry the device may follow leads to the chain of the request. -/
def Followable (q : Queue) (s : Sys) : Prop :=
  ∀ i, s.Offers i → s.mem.ring (i % q.qsz).toNat = 0 ∧ Chained q s.mem

/-- Where the device observes `avail.idx = h + 1` with entries to fetch, `h` is one of
them. -/
theorem Sys.offers_of_availIdx {h : UInt16} (hidx : s.mem.availIdx = h + 1)
    (hnew : s.mem.availIdx ≠ s.seen) : s.Offers h := by
  have hsub : h + 1 - s.seen = h - s.seen + 1 := by grind
  rw [Offers, hidx, hsub, UInt16.toNat_add]
  have hlt := (h - s.seen).toNat_lt
  by_cases hlast : (h - s.seen).toNat + 1 < 2 ^ 16
  · change (h - s.seen).toNat < ((h - s.seen).toNat + 1) % 2 ^ 16
    rw [Nat.mod_eq_of_lt hlast]
    exact Nat.lt_succ_self _
  · -- Then the difference wraps to zero, and there is nothing to fetch.
    have hzero : h - s.seen + 1 = 0 := by
      apply UInt16.toNat_inj.mp
      rw [UInt16.toNat_add]
      change ((h - s.seen).toNat + 1) % 2 ^ 16 = 0
      omega
    refine absurd ?_ hnew
    rw [hidx]
    grind

theorem storing_run {r : Read} (l rest : List Store) {s : Sys}
    (h : s.driver = .storing r (l ++ rest)) :
    Reaches q disk may s { s with mem := s.mem.stores l, driver := .storing r rest } := by
  induction l generalizing s with
  | nil =>
    have hs : { s with mem := s.mem.stores [], driver := .storing r rest } = s := by
      rw [← List.nil_append rest, ← h]
      rfl
    rw [hs]
  | cons st l ih => exact .head (.inl (.store h)) (ih rfl)

theorem polling_run {r : Read} {done : UInt16} (left : Nat) {s : Sys}
    (h : s.driver = .polling r done left) (hused : s.mem.usedIdx = done) :
    Reaches q disk may s { s with driver := .returned r false } := by
  induction left generalizing s with
  | zero => exact .single (.inl (.giveUp h))
  | succ left ih => exact .head (.inl (.again h hused)) (ih rfl hused)

/-- A call makes all its stores. -/
theorem call_run (r : Read) (hs : s.driver.between) (hmay : may s) :
    Reaches q disk may s
      { s with
        mem := s.mem.stores (xferStores q s.availHead r.lba)
        driver := .storing r [] } := by
  refine .head (.inl (.call r hs hmay)) (storing_run _ _ ?_)
  rw [List.append_nil]

/-- Then it reads `used.idx` and begins to poll. -/
theorem poll_begins {r : Read} (h : s.driver = .storing r []) :
    Reaches q disk may s
      { s with
        driver := .polling r s.mem.usedIdx pollBound
        availHead := s.availHead + 1 } :=
  .head (.inl (.placed h)) (.single (.inl (.look rfl)))

/-- A call that no completion comes to in time. -/
theorem xfer_givesUp (r : Read) (hs : s.driver.between) (hmay : may s) :
    Reaches q disk may s
      { s with
        mem := s.mem.stores (xferStores q s.availHead r.lba)
        driver := .returned r false
        availHead := s.availHead + 1 } :=
  ((call_run r hs hmay).trans (poll_begins rfl)).trans (polling_run pollBound rfl rfl)

/-- The ring after the stores of a call. -/
theorem ring_xferStores (m : Shared) (head : UInt16) (lba : Nat) :
    (m.stores (xferStores q head lba)).ring =
      Function.update m.ring (head % q.qsz).toNat 0 := rfl

theorem slot_of_lt {n : Nat} (h : n < q.qsz.toNat) : (UInt16.ofNat n % q.qsz).toNat = n := by
  have hle := q.qsz_le
  rw [UInt16.toNat_mod, UInt16.toNat_ofNat_of_lt' (show n < 2 ^ 16 by omega)]
  exact Nat.mod_eq_of_lt h

/-- After `n` calls that gave up, the later slots are as they were. -/
theorem calls_givenUp (disk : Nat → Nat → UInt8) (m : Shared) (r : Read) {n : Nat}
    (hn : n ≤ q.qsz.toNat) :
    ∃ s, Reaches q disk (fun _ => True) (.start m) s ∧ s.driver.between ∧
      s.availHead = UInt16.ofNat n ∧ s.seen = 0 ∧
      ∀ i, n ≤ i → i < q.qsz.toNat → s.mem.ring i = m.ring i := by
  induction n with
  | zero => exact ⟨.start m, .refl, trivial, rfl, rfl, fun _ _ _ => rfl⟩
  | succ n ih =>
    obtain ⟨s, hrun, hs, hhead, hseen, hring⟩ := ih (Nat.le_of_succ_le hn)
    refine ⟨_, hrun.trans (xfer_givesUp r hs trivial), trivial, ?_, hseen, fun i hi hi' => ?_⟩
    · rw [hhead]
      exact (UInt16.ofNat_add n 1).symm
    · dsimp only
      rw [ring_xferStores, hhead, slot_of_lt hn, Function.update_of_ne (by omega)]
      exact hring i (by omega) hi'

/-- The state of a call between the store of `avail.idx` and that of the slot. -/
theorem window_reached (r : Read) (hs : s.driver.between) (hmay : may s) :
    Reaches q disk may s
      { s with
        mem := s.mem.stores (prepare q r.lba ++ [.availIdx (s.availHead + 1)])
        driver := .storing r [.ring (s.availHead % q.qsz).toNat 0] } := by
  refine .head (.inl (.call r hs hmay)) (storing_run _ _ ?_)
  rw [List.append_assoc]
  rfl

/-- The stores that lay down a request. -/
def Store.prepares : Store → Bool
  | .availIdx _ | .ring _ _ => false
  | _ => true

theorem prepares_of_mem_prepare {lba : Nat} : ∀ st ∈ prepare q lba, st.prepares := by
  simp [prepare, writeDes, Store.prepares]

theorem Store.prepares.availIdx_eq {st : Store} (h : st.prepares) :
    (m.store st).availIdx = m.availIdx := by
  cases st <;> first | rfl | cases h

/-- Laying down a request writes the chain. -/
theorem chained_prepare (m : Shared) (lba : Nat) : Chained q (m.stores (prepare q lba)) := by
  simp [Chained, prepare, writeDes, Shared.stores, Shared.store]

/-- No store of a call breaks the chain. -/
theorem Chained.store {head : UInt16} {lba : Nat} {st : Store} (h : Chained q m)
    (hst : st ∈ xferStores q head lba) : Chained q (m.store st) := by
  obtain ⟨h0, h1, h2⟩ := h
  simp only [xferStores, prepare, publish, writeDes, List.mem_append, List.mem_cons,
    List.not_mem_nil, or_false] at hst
  rcases hst with (((hst | hst) | hst) | hst) | hst <;>
    rcases hst with rfl | rfl | rfl | rfl <;>
    simp [Chained, Shared.store, h0, h1, h2]

/-- Nothing has been published yet: the device has nothing to do, and a call under way
still has to lay down its request. -/
def Fresh (q : Queue) (s : Sys) : Prop :=
  s.mem.availIdx = s.seen ∧ s.jobs = [] ∧
    (s.driver.between ∨ ∃ r l head, s.driver = .storing r (l ++ publish q head) ∧
      (∀ st ∈ l, st.prepares) ∧ Chained q (s.mem.stores l))

/-- What every reachable state keeps if the ring starts out zero. -/
structure Published (q : Queue) (s : Sys) : Prop where
  ring : ∀ i < q.qsz.toNat, s.mem.ring i = 0
  rest : ∀ r rest, s.driver = .storing r rest → ∃ head, rest <:+ xferStores q head r.lba
  chain : Chained q s.mem ∨ Fresh q s

theorem Published.followable (h : Published q s) : Followable q s := by
  intro i hi
  rcases h.chain with hchain | hfresh
  · refine ⟨h.ring _ ?_, hchain⟩
    rw [UInt16.toNat_mod]
    exact Nat.mod_lt _ q.qsz_pos
  · rw [Sys.Offers, hfresh.1, UInt16.sub_self] at hi
    exact absurd hi (Nat.not_lt_zero _)

theorem published_start (hring : ∀ i < q.qsz.toNat, m.ring i = 0)
    (hfirst : m.availIdx = 0 ∨ Chained q m) : Published q (.start m) where
  ring := hring
  rest _ _ h := by cases h
  chain := by
    rcases hfirst with hidx | hchain
    · exact .inr ⟨hidx, rfl, .inl trivial⟩
    · exact .inl hchain

theorem Published.deviceStep (h : Published q s) (hstep : DeviceStep disk s s') :
    Published q s' where
  ring := by
    rw [hstep.ring_eq]
    exact h.ring
  rest := by
    rw [hstep.driver_eq]
    exact h.rest
  chain := by
    rcases h.chain with hchain | ⟨hidx, hjobs, -⟩
    · left
      rw [Chained, hstep.desc_eq]
      exact hchain
    · exact (hstep.not_quiet hidx hjobs).elim

/-- The head a call stores into the ring is 0. -/
private theorem eq_zero_of_mem_xferStores {head v : UInt16} {lba slot : Nat}
    (hst : .ring slot v ∈ xferStores q head lba) : v = 0 := by
  simp only [xferStores, prepare, publish, writeDes, List.mem_append, List.mem_cons,
    List.not_mem_nil, reduceCtorEq, or_false, false_or, Store.ring.injEq] at hst
  exact hst.2

/-- The ring stays zero under the stores of a call. -/
private theorem ring_store_zero {head : UInt16} {lba : Nat} {st : Store}
    (hst : st ∈ xferStores q head lba) {i : Nat} (h : m.ring i = 0) : (m.store st).ring i = 0 := by
  cases st with
  | ring slot v =>
    change Function.update m.ring slot v i = 0
    rw [eq_zero_of_mem_xferStores hst, Function.update_apply]
    split
    · rfl
    · exact h
  | _ => exact h

/-- One store of a call. -/
theorem Published.store {r : Read} {st : Store} {rest : List Store} (h : Published q s)
    (hs : s.driver = .storing r (st :: rest)) :
    Published q { s with mem := s.mem.store st, driver := .storing r rest } := by
  obtain ⟨head, hsuffix⟩ := h.rest r _ hs
  have hst : st ∈ xferStores q head r.lba := hsuffix.subset List.mem_cons_self
  refine ⟨fun i hi => ring_store_zero hst (h.ring i hi), fun r' rest' hr => ?_, ?_⟩
  · cases hr
    exact ⟨head, (List.suffix_cons st rest).trans hsuffix⟩
  rcases h.chain with hchain | ⟨hidx, hjobs, hbetween | ⟨r', l, head', hr, hl, hchain⟩⟩
  · exact .inl (hchain.store hst)
  · rw [hs] at hbetween
    exact hbetween.elim
  · rw [hs] at hr
    cases l with
    | nil =>
      -- The request has been laid down; this store publishes it.
      exact .inl (Chained.store (m := s.mem) hchain hst)
    | cons st' l =>
      obtain ⟨rfl, hcons⟩ := Driver.storing.inj hr
      obtain ⟨rfl, rfl⟩ := List.cons.inj hcons
      refine .inr ⟨?_, hjobs, .inr ⟨r, l, head', rfl, fun st hst => ?_, hchain⟩⟩
      · exact (Store.prepares.availIdx_eq (hl st List.mem_cons_self)).trans hidx
      · exact hl st (List.mem_cons_of_mem _ hst)

/-- A driver that is neither between calls nor storing has published. -/
theorem not_fresh (hbetween : ¬ s.driver.between)
    (hstoring : ∀ r l head, s.driver ≠ .storing r (l ++ publish q head)) : ¬ Fresh q s := by
  rintro ⟨-, -, hb | ⟨r, l, head, hr, -⟩⟩
  · exact hbetween hb
  · exact hstoring r l head hr

/-- A step of a driver that has published, to one that is not storing. -/
theorem Published.of_mem (h : Published q s) (hmem : s'.mem = s.mem)
    (hdriver : ∀ r rest, s'.driver ≠ .storing r rest) (hold : ¬ Fresh q s) : Published q s' where
  ring := by
    rw [hmem]
    exact h.ring
  rest r rest hs := absurd hs (hdriver r rest)
  chain := by
    rw [hmem]
    exact .inl (h.chain.resolve_right hold)

theorem Published.driverStep (h : Published q s) (hstep : DriverStep q may s s') :
    Published q s' := by
  cases hstep with
  | call r hs _ =>
    refine ⟨h.ring, fun r' rest hr => ?_, ?_⟩
    · cases hr
      exact ⟨s.availHead, List.suffix_rfl⟩
    · rcases h.chain with hchain | ⟨hidx, hjobs, -⟩
      · exact .inl hchain
      · exact .inr ⟨hidx, hjobs, .inr ⟨r, prepare q r.lba, s.availHead, rfl,
          prepares_of_mem_prepare, chained_prepare s.mem r.lba⟩⟩
  | store hs => exact h.store hs
  | placed hs =>
    refine h.of_mem rfl (by simp) (not_fresh (by simp [hs, Driver.between]) ?_)
    simp [hs, publish]
  | look hs | giveUp hs | finish hs =>
    exact h.of_mem rfl (by simp) (not_fresh (by simp [hs, Driver.between]) (by simp [hs]))
  | again hs _ | arrived hs _ | copy hs _ =>
    exact h.of_mem rfl (by simp) (not_fresh (by simp [hs, Driver.between]) (by simp [hs]))

theorem Published.run (h : Published q s) (hrun : Reaches q disk may s s') : Published q s' := by
  induction hrun with
  | refl => exact h
  | tail _ hstep ih =>
    rcases hstep with hdriver | hdevice
    · exact ih.driverStep hdriver
    · exact ih.deviceStep hdevice

/-- **When ring entries are written before they are published.** Whatever the frames held at
the start, in every run of calls and device steps every entry the device may follow has
descriptor head 0 and leads to the request's chain, if and only if the ring started out zero
in all its slots and `avail.idx` started at zero or the descriptors held the chain already. -/
theorem followable_iff (q : Queue) (disk : Nat → Nat → UInt8) (m : Shared) :
    (∀ s, Reaches q disk (fun _ => True) (.start m) s → Followable q s) ↔
      (∀ i < q.qsz.toNat, m.ring i = 0) ∧ (m.availIdx = 0 ∨ Chained q m) := by
  constructor
  · intro h
    constructor
    · intro i hi
      -- The call after `i` others, just before it writes slot `i`.
      obtain ⟨s, hrun, hs, hhead, hseen, hring⟩ :=
        calls_givenUp disk m ⟨0, fun _ => 0⟩ (Nat.le_of_lt hi)
      have hwindow := h _ (hrun.trans (window_reached ⟨0, fun _ => 0⟩ hs trivial))
      have hslot := (hwindow (UInt16.ofNat i) ?_).1
      · dsimp only at hslot
        rw [slot_of_lt hi] at hslot
        exact (hring i le_rfl hi).symm.trans hslot
      · have hle := q.qsz_le
        change (UInt16.ofNat i - s.seen).toNat < (s.availHead + 1 - s.seen).toNat
        rw [hseen, hhead, UInt16.sub_zero, UInt16.sub_zero, UInt16.toNat_add,
          UInt16.toNat_ofNat_of_lt' (show i < 2 ^ 16 by omega)]
        change i < (i + 1) % 2 ^ 16
        omega
    · by_contra hnot
      rw [not_or] at hnot
      have hstart := h _ .refl
      refine hnot.2 (hstart 0 ?_).2
      change (0 - 0 : UInt16).toNat < (m.availIdx - 0).toNat
      rw [UInt16.sub_zero, UInt16.sub_zero]
      exact Nat.pos_of_ne_zero fun h0 => hnot.1 (UInt16.toNat_inj.mp h0)
  · rintro ⟨hring, hfirst⟩ s hrun
    exact ((published_start hring hfirst).run hrun).followable

/-- A queue of eight entries. -/
def smallQueue : Queue := ⟨8, 0x5000, by decide, by decide⟩

/-- Frames that held something else before: slot 0 of the ring is 5. -/
def usedFrames : Shared where
  reqType := 0
  reserved := 0
  sector := 0
  data _ := 0
  status := 0
  desc _ := ⟨0, 0, 0, 0⟩
  availIdx := 0
  ring i := if i = 0 then 5 else 0
  usedIdx := 0

/-- In the first call the device can observe `avail.idx = 1` with descriptor head 5 in the
slot. -/
theorem stale_slot_published :
    ∃ s, Reaches smallQueue (fun _ _ => 0) (fun _ => True) (.start usedFrames) s ∧
      s.mem.availIdx = 1 ∧ s.Offers 0 ∧ s.mem.ring ((0 : UInt16) % smallQueue.qsz).toNat = 5 ∧
      ¬ Followable smallQueue s := by
  have hrun : Reaches smallQueue (fun _ _ => 0) (fun _ => True) (.start usedFrames) _ :=
    window_reached ⟨7, fun _ => 0⟩ trivial trivial
  refine ⟨_, hrun, rfl, by decide, rfl, fun h => ?_⟩
  exact absurd (h 0 (by decide)).1 (by decide)

end LionOS.Virtio
