import LionOS.Interrupts.Controllers

/-!
# Which interrupts are taken, and how often

The processor, the controllers and the devices take steps in any order. In every place of the
code it is known what the controllers are set to and what is in service, whatever is latched.
From that follow the vectors that are taken at all, the counters, and that a latched edge is
served once.
-/

namespace LionOS.Interrupts

open Lib.Pic8259

/-- A handler of line `i`, which ends with the end of the interrupt, is down to `left`. -/
def Serving (c : Pair) (i : Fin 8) (isr left : List Op) : Prop :=
  left <:+ isr ∧ c.settled = configured (if left = [] then none8 else only i)

/-- The state of the controllers in each place of the code, `c₀` being what the firmware
left. -/
def Settled (c₀ c : Pair) : Code → Prop
  | .bringUp left =>
    ∃ done, done ++ left = bringUp ∧
      c.settled = (done.foldl (fun c op => op.onChips c) c₀).settled
  | .kernel => c.settled = configured none8
  | .isr left => Serving c Pair.line0 timerIsr left ∨ Serving c Pair.line1 keyboardIsr left
  | .fault => False

theorem Settled.congr {c₀ c d : Pair} {code : Code} (h : Settled c₀ c code)
    (hcd : d.settled = c.settled) : Settled c₀ d code := by
  cases code with
  | fault => exact h
  | kernel => exact hcd.trans h
  | bringUp left => exact h.imp fun done hdone => ⟨hdone.1, hcd.trans hdone.2⟩
  | isr left => exact h.imp (fun h => ⟨h.1, hcd.trans h.2⟩) fun h => ⟨h.1, hcd.trans h.2⟩

/-- The accesses of a handler that are still to come. -/
def Code.left : Code → List Op
  | .isr left => left
  | _ => []

/-- What holds after every step. -/
structure Machine.Inv (c₀ : Pair) (s : Machine) : Prop where
  settled : Settled c₀ s.chips s.code
  taken : ∀ v ∈ s.taken, v = 0x20 ∨ v = 0x21
  mouse : s.mouse = .initial
  ticks : s.ticks + UInt64.ofNat (s.code.left.count .tick) = UInt64.ofNat (s.taken.count 0x20)
  keyCount :
    s.keyCount + UInt64.ofNat (s.code.left.count .keyCount) = UInt64.ofNat (s.taken.count 0x21)

/-- The next access of a handler that works in two accesses in front of the end of the
interrupt. -/
theorem Serving.step {c : Pair} {i : Fin 8} {a b op : Op} {left : List Op}
    (ha : a.onChips c = c) (hb : b.onChips c = c)
    (h : Serving c i [a, b, .outb pic1Cmd 0x20] (op :: left)) :
    Serving (op.onChips c) i [a, b, .outb pic1Cmd 0x20] left := by
  obtain ⟨hsuffix, hchips⟩ := h
  rw [if_neg (List.cons_ne_nil op left)] at hchips
  simp only [List.suffix_cons_iff, List.suffix_nil, List.cons.injEq, reduceCtorEq,
    or_false] at hsuffix
  rcases hsuffix with ⟨rfl, rfl⟩ | ⟨rfl, rfl⟩ | ⟨rfl, rfl⟩
  · exact ⟨List.suffix_cons _ _, ha.symm ▸ hchips⟩
  · exact ⟨⟨[_, _], rfl⟩, hb.symm ▸ hchips⟩
  · exact ⟨List.nil_suffix, settled_eoi hchips⟩

namespace Machine

variable {c₀ : Pair} {s : Machine} {data : UInt8} {op : Op} {left : List Op}

/-- An access counts if it is one of those that count. -/
theorem ticks_perform (s : Machine) (data : UInt8) (op : Op) (left : List Op) :
    (s.perform data op).ticks + UInt64.ofNat (left.count .tick) =
      s.ticks + UInt64.ofNat ((op :: left).count .tick) := by
  by_cases h : op = .tick
  · subst h
    rw [List.count_cons_self, UInt64.ofNat_add, UInt64.add_comm (UInt64.ofNat _),
      ← UInt64.add_assoc]
    rfl
  · rw [List.count_cons_of_ne h]
    cases op <;> first | rfl | exact absurd rfl h

theorem keyCount_perform (s : Machine) (data : UInt8) (op : Op) (left : List Op) :
    (s.perform data op).keyCount + UInt64.ofNat (left.count .keyCount) =
      s.keyCount + UInt64.ofNat ((op :: left).count .keyCount) := by
  by_cases h : op = .keyCount
  · subst h
    rw [List.count_cons_self, UInt64.ofNat_add, UInt64.add_comm (UInt64.ofNat _),
      ← UInt64.add_assoc]
    rfl
  · rw [List.count_cons_of_ne h]
    cases op <;> first | rfl | exact absurd rfl h

theorem mouse_perform (s : Machine) (data : UInt8) (h : op ≠ .handleByte) :
    (s.perform data op).mouse = s.mouse := by
  cases op <;> first | rfl | exact absurd rfl h

@[simp] theorem taken_perform (s : Machine) (data : UInt8) (op : Op) :
    (s.perform data op).taken = s.taken := by
  cases op <;> rfl

theorem Inv.boot (c₀ : Pair) (sched : Sched.Kernel) : (Machine.boot c₀ sched).Inv c₀ where
  settled := ⟨[], rfl, rfl⟩
  taken := by simp [Machine.boot]
  mouse := rfl
  ticks := rfl
  keyCount := rfl

/-- An access of the bring-up. -/
theorem Inv.bringUp_step (h : s.Inv c₀) (hcode : s.code = .bringUp (op :: left)) :
    Inv c₀ { s.perform data op with code := .bringUp left } := by
  have hset := h.settled
  have hticks := h.ticks
  have hkeys := h.keyCount
  rw [hcode] at hset hticks hkeys
  obtain ⟨done, hdone, hchips⟩ := hset
  have hmem : op ∈ bringUp := hdone ▸ List.mem_append_right done List.mem_cons_self
  have hquiet : ∀ op ∈ bringUp, op ≠ .tick ∧ op ≠ .keyCount ∧ op ≠ .handleByte := by decide
  obtain ⟨htick, hkey, hbyte⟩ := hquiet op hmem
  refine ⟨⟨done ++ [op], by simpa using hdone, ?_⟩, ?_, (s.mouse_perform data hbyte).trans h.mouse,
    ?_, ?_⟩
  · rw [chips_perform, List.foldl_append]
    exact op.settled_onChips hchips
  · rw [taken_perform]
    exact h.taken
  · have := s.ticks_perform data op []
    rw [List.count_cons_of_ne htick] at this
    rw [taken_perform]
    exact this.trans hticks
  · have := s.keyCount_perform data op []
    rw [List.count_cons_of_ne hkey] at this
    rw [taken_perform]
    exact this.trans hkeys

/-- An access of a handler. -/
theorem Inv.isr_step (h : s.Inv c₀) (hcode : s.code = .isr (op :: left)) :
    Inv c₀ { s.perform data op with code := .isr left } := by
  have hset := h.settled
  have hticks := h.ticks
  have hkeys := h.keyCount
  rw [hcode] at hset hticks hkeys
  have hnext : Settled c₀ (op.onChips s.chips) (.isr left) :=
    hset.imp (Serving.step rfl rfl) (Serving.step rfl rfl)
  have hbyte : op ≠ .handleByte := by
    rintro rfl
    rcases hset with hset | hset
    · exact absurd (hset.1.subset List.mem_cons_self) (by decide)
    · exact absurd (hset.1.subset List.mem_cons_self) (by decide)
  refine ⟨?_, ?_, (s.mouse_perform data hbyte).trans h.mouse, ?_, ?_⟩
  · rw [chips_perform]
    exact hnext
  · rw [taken_perform]
    exact h.taken
  · rw [taken_perform]
    exact (s.ticks_perform data op left).trans hticks
  · rw [taken_perform]
    exact (s.keyCount_perform data op left).trans hkeys

/-- The processor takes the interrupt of a line of the first controller. -/
def enter (s : Machine) (i : Fin 8) (isr : List Op) : Machine :=
  { s with
    chips := { s.chips with master := s.chips.master.serve i }
    intFlag := false
    taken := (0x20 + UInt8.ofNat i) :: s.taken
    code := .isr isr }

/-- What the processor takes between two instructions of the kernel. -/
theorem interrupt_configured (h : s.chips.settled = configured none8) :
    s.interrupt =
      if s.chips.pending 0 then s.enter 0 timerIsr
      else if s.chips.pending 1 then s.enter 1 keyboardIsr
      else s := by
  rw [Machine.interrupt, acknowledge_configured h]
  by_cases h0 : s.chips.pending 0 = true
  · rw [if_pos h0, if_pos h0]
    rfl
  rw [if_neg h0, if_neg h0]
  by_cases h1 : s.chips.pending 1 = true
  · rw [if_pos h1, if_pos h1]
    rfl
  · rw [if_neg h1, if_neg h1]

theorem Inv.interrupt (h : s.Inv c₀) (hcode : s.code = .kernel) : s.interrupt.Inv c₀ := by
  have hset := h.settled
  have hticks := h.ticks
  have hkeys := h.keyCount
  rw [hcode] at hset hticks hkeys
  rw [interrupt_configured hset]
  split
  · refine ⟨Or.inl ⟨List.suffix_rfl, settled_serve hset 0⟩, ?_, h.mouse, ?_, ?_⟩
    · exact fun v hv => (List.mem_cons.mp hv).elim Or.inl (h.taken v)
    · have hcount : (s.enter 0 timerIsr).taken.count 0x20 = s.taken.count 0x20 + 1 :=
        List.count_cons_self
      rw [hcount, UInt64.ofNat_add, ← hticks]
      exact (congrArg (· + UInt64.ofNat 1) (UInt64.add_zero s.ticks)).symm
    · exact hkeys
  · split
    · refine ⟨Or.inr ⟨List.suffix_rfl, settled_serve hset 1⟩, ?_, h.mouse, ?_, ?_⟩
      · exact fun v hv => (List.mem_cons.mp hv).elim Or.inr (h.taken v)
      · exact hticks
      · have hcount : (s.enter 1 keyboardIsr).taken.count 0x21 = s.taken.count 0x21 + 1 :=
          List.count_cons_self
        rw [hcount, UInt64.ofNat_add, ← hkeys]
        exact (congrArg (· + UInt64.ofNat 1) (UInt64.add_zero s.keyCount)).symm
    · exact h

theorem Inv.step (h : s.Inv c₀) (e : Event) : (s.step e).Inv c₀ := by
  have hset := h.settled
  have hticks := h.ticks
  have hkeys := h.keyCount
  cases e with
  | raise irq =>
    exact ⟨hset.congr (Pair.settled_raise _ _), h.taken, h.mouse, hticks, hkeys⟩
  | setFlag on =>
    rw [Machine.step]
    split
    · exact ⟨hset, h.taken, h.mouse, hticks, hkeys⟩
    · exact h
  | sched k =>
    rw [Machine.step]
    split
    · exact ⟨hset, h.taken, h.mouse, hticks, hkeys⟩
    · exact h
  | cpu data =>
    rw [Machine.step]
    split
    case h_1 op left hcode => exact h.bringUp_step hcode
    case h_2 hcode =>
      rw [hcode] at hset hticks hkeys
      obtain ⟨done, hdone, hchips⟩ := hset
      rw [List.append_nil] at hdone
      refine ⟨hchips.trans (hdone ▸ bringUp_onChips c₀), h.taken, h.mouse, hticks, hkeys⟩
    case h_3 op left hcode => exact h.isr_step hcode
    case h_4 hcode =>
      rw [hcode] at hset hticks hkeys
      exact ⟨hset.elim And.right And.right, h.taken, h.mouse, hticks, hkeys⟩
    case h_5 hcode =>
      split
      · exact h.interrupt hcode
      · exact h
    case h_6 => exact h

theorem Inv.run (h : s.Inv c₀) (events : List Event) : (s.run events).Inv c₀ := by
  induction events generalizing s with
  | nil => exact h
  | cons e events ih => exact ih (h.step e)

/-- In the kernel's own code both counters have counted every interrupt that was taken. -/
theorem Inv.counters (h : s.Inv c₀) (hcode : s.code = .kernel) :
    s.ticks = UInt64.ofNat (s.taken.count 0x20) ∧
      s.keyCount = UInt64.ofNat (s.taken.count 0x21) := by
  have hticks := h.ticks
  have hkeys := h.keyCount
  rw [hcode] at hticks hkeys
  exact ⟨(UInt64.add_zero _).symm.trans hticks, (UInt64.add_zero _).symm.trans hkeys⟩

/-- **The timer and the keyboard, and nobody else.** Whatever state the firmware leaves the
controllers in, and whatever lines are raised when, also while they are being set up: the
processor only ever takes the vectors of the timer and of the keyboard. It never takes one
without a gate, no byte reaches the mouse's decoder, and in the kernel's own code nothing is
in service and both counters have counted every interrupt that was taken. -/
theorem interrupts_of_run (chips : Pair) (sched : Sched.Kernel) (events : List Event) :
    let s := (Machine.boot chips sched).run events
    (∀ vector ∈ s.taken, vector = 0x20 ∨ vector = 0x21) ∧
      s.code ≠ .fault ∧
      s.mouse = .initial ∧
      (s.code = .kernel →
        (∀ i, s.chips.master.inService i = false ∧ s.chips.slave.inService i = false) ∧
          s.ticks = UInt64.ofNat (s.taken.count 0x20) ∧
          s.keyCount = UInt64.ofNat (s.taken.count 0x21)) := by
  intro s
  have h : s.Inv chips := (Inv.boot chips sched).run events
  refine ⟨h.taken, fun hcode => ?_, h.mouse, fun hcode => ?_⟩
  · have hset := h.settled
    rw [hcode] at hset
    exact hset
  · have hset := h.settled
    rw [hcode] at hset
    refine ⟨fun i => ⟨?_, ?_⟩, h.counters hcode⟩
    · exact congrFun (congrArg (·.master.inService) hset) i
    · exact congrFun (congrArg (·.slave.inService) hset) i

/-! ## Every edge is served once -/

/-- How often a line is latched during a run: an edge on a line that is pending already adds
nothing. -/
def latched (irq : Fin 16) (s : Machine) : List Event → Nat
  | [] => 0
  | .raise i :: events =>
    (if i = irq ∧ s.chips.pending irq = false then 1 else 0) +
      latched irq (s.step (.raise i)) events
  | e :: events => latched irq (s.step e) events

/-- The bring-up is over. -/
def Up (s : Machine) : Prop := ∀ left, s.code ≠ .bringUp left

/-- How often a line was served or waits for it. -/
def seen (s : Machine) (irq : Fin 16) : Nat :=
  s.taken.count (0x20 + UInt8.ofNat irq) + (s.chips.pending irq).toNat

end Machine

theorem pending_onChips (c : Pair) {op : Op} (h : op ∈ timerIsr ∨ op ∈ keyboardIsr)
    (irq : Fin 16) : (op.onChips c).pending irq = c.pending irq := by
  have heoi : ∀ op ∈ timerIsr ++ keyboardIsr, ∀ port v, op = .outb port v →
      port = pic1Cmd ∧ v = 0x20 := by
    simp [timerIsr, keyboardIsr, eoi]
  cases op with
  | outb port v =>
    obtain ⟨rfl, rfl⟩ := heoi _ (List.mem_append.mpr h) port v rfl
    exact c.pending_endOfInterrupt irq
  | _ => rfl

namespace Machine

variable {c₀ : Pair} {s : Machine}

theorem Up.step (h : s.Inv c₀) (hup : s.Up) (e : Event) : (s.step e).Up := by
  intro left hcode
  cases e with
  | raise irq => exact hup left hcode
  | setFlag on =>
    rw [Machine.step] at hcode
    split at hcode
    · exact hup left hcode
    · exact hup left hcode
  | sched k =>
    rw [Machine.step] at hcode
    split at hcode
    · exact hup left hcode
    · exact hup left hcode
  | cpu data =>
    rw [Machine.step] at hcode
    split at hcode
    case h_1 op left' hc => exact hup _ hc
    case h_2 hc => exact hup _ hc
    case h_3 => cases hcode
    case h_4 => cases hcode
    case h_5 hc =>
      have hset := h.settled
      rw [hc] at hset
      rw [interrupt_configured hset] at hcode
      repeat' split at hcode
      · cases hcode
      · cases hcode
      · exact hup left hcode
      · exact hup left hcode
    case h_6 => exact hup left hcode

/-- To serve a pending line is no new edge. -/
private theorem seen_enter {i : Fin 8} (isr : List Op)
    (hpending : s.chips.pending (i.castLE (by decide)) = true) (irq : Fin 16) :
    (s.enter i isr).seen irq = s.seen irq := by
  have hvector : ∀ (i : Fin 8) (irq : Fin 16),
      (0x20 + UInt8.ofNat i == 0x20 + UInt8.ofNat irq) = decide (irq.val = i.val) := by decide
  have hp : (s.enter i isr).chips.pending irq = (decide (irq.val ≠ i.val) && s.chips.pending irq) :=
    s.chips.pending_serve i irq
  have hcount : (s.enter i isr).taken.count (0x20 + UInt8.ofNat irq) =
      s.taken.count (0x20 + UInt8.ofNat irq) + if irq.val = i.val then 1 else 0 := by
    simp only [enter, List.count_cons, hvector, decide_eq_true_eq]
  rw [seen, seen, hp, hcount]
  by_cases h : irq.val = i.val
  · have hirq : irq = i.castLE (by decide) := Fin.ext h
    subst hirq
    simp [hpending]
  · simp [h]

/-- A step sees a line's new edge or nothing. -/
theorem seen_step (h : s.Inv c₀) (hup : s.Up) (e : Event) (irq : Fin 16) :
    (s.step e).seen irq = s.seen irq + s.latched irq [e] := by
  cases e with
  | raise i =>
    have hraise : (s.step (.raise i)).seen irq = s.taken.count (0x20 + UInt8.ofNat irq) +
        (decide (i = irq) || s.chips.pending irq).toNat := by
      rw [seen, Machine.step, Pair.pending_raise]
    rw [hraise, seen, latched, latched]
    by_cases hi : i = irq
    · cases hp : s.chips.pending irq <;> simp [hi]
    · simp [hi]
  | setFlag on =>
    rw [Machine.step]
    split
    · rfl
    · rfl
  | sched k =>
    rw [Machine.step]
    split
    · rfl
    · rfl
  | cpu data =>
    have hset := h.settled
    rw [Machine.step]
    split
    case h_1 hc => exact absurd hc (hup _)
    case h_2 hc => exact absurd hc (hup _)
    case h_3 op left hc =>
      rw [hc] at hset
      have hmem : op ∈ timerIsr ∨ op ∈ keyboardIsr :=
        hset.imp (fun h => h.1.subset List.mem_cons_self) fun h => h.1.subset List.mem_cons_self
      have hp : (op.onChips s.chips).pending irq = s.chips.pending irq :=
        pending_onChips s.chips hmem irq
      rw [seen, taken_perform, chips_perform, hp]
      rfl
    case h_4 => rfl
    case h_5 hc =>
      split
      · rw [hc] at hset
        rw [interrupt_configured hset]
        split
        · next h0 => exact seen_enter timerIsr h0 irq
        · split
          · next h1 => exact seen_enter keyboardIsr h1 irq
          · rfl
      · rfl
    case h_6 => rfl

private theorem latched_cons (irq : Fin 16) (s : Machine) (e : Event) (events : List Event) :
    s.latched irq (e :: events) = s.latched irq [e] + (s.step e).latched irq events := by
  cases e <;> simp [latched]

theorem seen_run (h : s.Inv c₀) (hup : s.Up) (events : List Event) (irq : Fin 16) :
    (s.run events).seen irq = s.seen irq + s.latched irq events := by
  induction events generalizing s with
  | nil => rfl
  | cons e events ih =>
    rw [latched_cons, ← Nat.add_assoc, ← seen_step h hup e irq]
    exact ih (h.step e) (hup.step h e)

theorem latched_cpu (irq : Fin 16) (s : Machine) (datas : List UInt8) :
    s.latched irq (datas.map .cpu) = 0 := by
  induction datas generalizing s with
  | nil => rfl
  | cons data datas ih => exact ih _

/-- How many steps the processor has in front of it before it is back in the kernel's code with
neither line pending. -/
def work (s : Machine) : Nat :=
  5 * (s.chips.pending 0).toNat + 5 * (s.chips.pending 1).toNat +
    match s.code with
    | .isr left => left.length + 1
    | _ => 0

/-- Interrupts are on, or a handler runs that will turn them on. -/
def Open (s : Machine) : Prop := s.code = .kernel → s.intFlag = true

theorem work_le (h : s.Inv c₀) : s.work ≤ 14 := by
  have hp : ∀ b : Bool, b.toNat ≤ 1 := Bool.toNat_le
  have h0 := hp (s.chips.pending 0)
  have h1 := hp (s.chips.pending 1)
  have hset := h.settled
  unfold work
  cases hcode : s.code with
  | isr left =>
    rw [hcode] at hset
    have hlen : left.length ≤ 3 := by
      rcases hset with hset | hset
      · exact hset.1.length_le
      · exact hset.1.length_le
    simp only
    omega
  | _ => simp only; omega

/-- The processor gets on with it. -/
theorem work_cpu (h : s.Inv c₀) (hup : s.Up) (hopen : s.Open) (data : UInt8) :
    (s.step (.cpu data)).work = s.work - 1 ∧ (s.step (.cpu data)).Open := by
  have hset := h.settled
  rw [Machine.step]
  split
  case h_1 hc => exact absurd hc (hup _)
  case h_2 hc => exact absurd hc (hup _)
  case h_3 op left hc =>
    rw [hc] at hset
    have hmem : op ∈ timerIsr ∨ op ∈ keyboardIsr :=
      hset.imp (fun h => h.1.subset List.mem_cons_self) fun h => h.1.subset List.mem_cons_self
    refine ⟨?_, fun hcode => nomatch hcode⟩
    simp only [work, chips_perform, pending_onChips s.chips hmem, hc, List.length_cons]
    omega
  case h_4 hc => exact ⟨by simp only [work, hc]; rfl, fun _ => rfl⟩
  case h_5 hc =>
    rw [hc] at hset
    rw [if_pos (hopen hc), interrupt_configured hset]
    have hserve : ∀ (i : Fin 8) (isr : List Op) (irq : Fin 16),
        (s.enter i isr).chips.pending irq = (decide (irq.val ≠ i.val) && s.chips.pending irq) :=
      fun i isr irq => s.chips.pending_serve i irq
    split
    case isTrue h0 =>
      refine ⟨?_, fun hcode => nomatch hcode⟩
      have h0' : (s.enter 0 timerIsr).chips.pending 0 = false := hserve 0 timerIsr 0
      have h1' : (s.enter 0 timerIsr).chips.pending 1 = s.chips.pending 1 := hserve 0 timerIsr 1
      have hcode : (s.enter 0 timerIsr).code = .isr timerIsr := rfl
      have hlen : timerIsr.length = 3 := rfl
      simp only [work, h0', h1', h0, hc, hcode, hlen, Bool.toNat_true, Bool.toNat_false]
      omega
    case isFalse h0 =>
      split
      case isTrue h1 =>
        refine ⟨?_, fun hcode => nomatch hcode⟩
        have h0' : (s.enter 1 keyboardIsr).chips.pending 0 = s.chips.pending 0 :=
          hserve 1 keyboardIsr 0
        have h1' : (s.enter 1 keyboardIsr).chips.pending 1 = false := hserve 1 keyboardIsr 1
        have hcode : (s.enter 1 keyboardIsr).code = .isr keyboardIsr := rfl
        have hlen : keyboardIsr.length = 3 := rfl
        simp only [work, h0', h1', h1, hc, hcode, hlen, Bool.toNat_true, Bool.toNat_false]
        omega
      case isFalse h1 =>
        have h0' : s.chips.pending 0 = false := Bool.eq_false_of_not_eq_true h0
        have h1' : s.chips.pending 1 = false := Bool.eq_false_of_not_eq_true h1
        exact ⟨by simp only [work, h0', h1', hc]; rfl, hopen⟩
  case h_6 hc =>
    rw [hc] at hset
    exact hset.elim

theorem work_run (h : s.Inv c₀) (hup : s.Up) (hopen : s.Open) (datas : List UInt8) :
    (s.run (datas.map .cpu)).work = s.work - datas.length := by
  induction datas generalizing s with
  | nil => rfl
  | cons data datas ih =>
    obtain ⟨hwork, hopen'⟩ := work_cpu h hup hopen data
    refine (ih (h.step _) (hup.step h _) hopen').trans ?_
    rw [hwork, List.length_cons, Nat.sub_sub, Nat.add_comm 1]

theorem Up.run (h : s.Inv c₀) (hup : s.Up) (events : List Event) : (s.run events).Up := by
  induction events generalizing s with
  | nil => exact hup
  | cons e events ih => exact ih (h.step e) (hup.step h e)

/-- Without work the processor is in the kernel's code and neither line waits. -/
private theorem of_work_eq_zero (h : s.Inv c₀) (hup : s.Up) (hwork : s.work = 0) :
    s.code = .kernel ∧ s.chips.pending 0 = false ∧ s.chips.pending 1 = false := by
  have hset := h.settled
  unfold work at hwork
  refine ⟨?_, ?_, ?_⟩
  · cases hcode : s.code with
    | bringUp left => exact absurd hcode (hup left)
    | kernel => rfl
    | isr left =>
      rw [hcode] at hwork
      exact absurd hwork (Nat.succ_ne_zero _)
    | fault =>
      rw [hcode] at hset
      exact hset.elim
  · exact Bool.toNat_eq_zero.mp (by omega)
  · exact Bool.toNat_eq_zero.mp (by omega)

/-- **Every edge is served once.** From the end of the bring-up on, a line's edges are those
that were served and the one that waits: no edge is lost that is not one on a line that waits
already, and none is served twice. Once interrupts are on and nothing more comes, fourteen
steps of the processor are enough to serve what waits on the lines of the timer and of the
keyboard, and then the counters have counted every edge. -/
theorem edges_served_once (chips : Pair) (sched : Sched.Kernel) (before more : List Event)
    (hup : ((Machine.boot chips sched).run before).Up) :
    let s := (Machine.boot chips sched).run before
    let s' := s.run more
    (∀ irq, s'.seen irq = s.seen irq + s.latched irq more) ∧
      (s'.Open → ∀ datas : List UInt8, 14 ≤ datas.length →
        let s'' := s'.run (datas.map .cpu)
        s''.code = .kernel ∧
          s''.chips.pending 0 = false ∧ s''.chips.pending 1 = false ∧
          s''.taken.count 0x20 = s'.seen 0 ∧ s''.taken.count 0x21 = s'.seen 1 ∧
          s''.ticks = UInt64.ofNat (s'.seen 0) ∧ s''.keyCount = UInt64.ofNat (s'.seen 1)) := by
  intro s s'
  have h : s.Inv chips := (Inv.boot chips sched).run before
  have h' : s'.Inv chips := h.run more
  have hup' : s'.Up := Up.run h hup more
  refine ⟨seen_run h hup more, fun hopen datas hlen => ?_⟩
  intro s''
  have hwork : s''.work = 0 := by
    rw [work_run h' hup' hopen datas]
    have := work_le h'
    omega
  obtain ⟨hcode, h0, h1⟩ := of_work_eq_zero (h'.run _) (Up.run h' hup' _) hwork
  have hseen : ∀ irq, s''.seen irq = s'.seen irq := fun irq => by
    rw [seen_run h' hup', latched_cpu, Nat.add_zero]
  have htimer : s''.taken.count 0x20 = s'.seen 0 := by
    rw [← hseen 0, seen, h0]
    rfl
  have hkeys : s''.taken.count 0x21 = s'.seen 1 := by
    rw [← hseen 1, seen, h1]
    rfl
  obtain ⟨hticks, hcount⟩ := (h'.run _).counters hcode
  exact ⟨hcode, h0, h1, htimer, hkeys, htimer ▸ hticks, hkeys ▸ hcount⟩

/-- The mouse moves during the bring-up, and a key is pressed behind it while the timer
ticks. -/
theorem edges_served_small :
    let before := .raise 12 :: List.replicate 25 (.cpu 0)
    let s := (Machine.boot (configured none8) Sched.Kernel.boot).run before
    let s' := s.run [.raise 1, .raise 0, .raise 12, .raise 0]
    s'.seen 0 = 1 ∧ s'.seen 1 = 1 ∧ s'.seen 12 = 1 ∧
      (s'.run ((List.replicate 14 0x1E).map .cpu)).taken.count 0x20 = 1 := by
  intro before s s'
  have hcode : s.code = .kernel := rfl
  have hup : s.Up := fun left h => by
    rw [hcode] at h
    cases h
  have hopen : s'.Open := fun _ => rfl
  obtain ⟨hseen, hrest⟩ := edges_served_once (configured none8) Sched.Kernel.boot before
    [.raise 1, .raise 0, .raise 12, .raise 0] hup
  have hall := hrest hopen (List.replicate 14 0x1E) (by simp)
  exact ⟨(hseen 0).trans rfl, (hseen 1).trans rfl, (hseen 12).trans rfl,
    hall.2.2.2.1.trans ((hseen 0).trans rfl)⟩

end Machine

end LionOS.Interrupts
