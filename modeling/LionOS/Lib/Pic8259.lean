import Mathlib.Data.Fin.Basic
import Mathlib.Data.List.FinRange
import Mathlib.Logic.Function.Basic
import Mathlib.Tactic.Common

/-!
# A pair of 8259 interrupt controllers

A chip latches the requests of eight lines and offers the processor the first of them that is
not masked, as long as neither it nor a line before it is in service. The second chip of the
pair is wired to line 2 of the first one. Lines are edge triggered, the nesting is the plain
one, and the end of an interrupt is announced without naming its line.

What is latched changes behind the program's back; everything else changes at its own
accesses alone. `settled` forgets the latches.
-/

namespace Lib.Pic8259

/-- What a chip takes the next byte at its data port for. -/
inductive Phase where
  | masks
  | base
  | cascade
  | mode
  deriving DecidableEq

/-- One chip. -/
@[ext] structure Pic where
  pending : Fin 8 → Bool
  inService : Fin 8 → Bool
  masked : Fin 8 → Bool
  base : UInt8
  cascade : UInt8
  phase : Phase
  single : Bool
  needsMode : Bool

/-- The line of the highest priority. -/
def highest (f : Fin 8 → Bool) : Option (Fin 8) := (List.finRange 8).find? f

theorem highest_eq_none {f : Fin 8 → Bool} (h : highest f = none) (i : Fin 8) : f i = false := by
  simpa using List.find?_eq_none.mp h i (List.mem_finRange i)

theorem of_highest {f : Fin 8 → Bool} {i : Fin 8} (h : highest f = some i) : f i = true :=
  List.find?_some h

theorem before_highest {f : Fin 8 → Bool} {i j : Fin 8} (h : highest f = some i) (hj : j < i) :
    f j = false := by
  obtain ⟨-, front, back, hlist, hfront⟩ := List.find?_eq_some_iff_append.mp h
  have hsorted := List.pairwise_lt_finRange 8
  rw [hlist, List.pairwise_append] at hsorted
  have hmem : j ∈ front ++ i :: back := hlist ▸ List.mem_finRange j
  rcases List.mem_append.mp hmem with hj' | hj'
  · simpa using hfront j hj'
  · rcases List.mem_cons.mp hj' with rfl | hback
    · exact absurd hj (lt_irrefl _)
    · exact absurd (List.rel_of_pairwise_cons hsorted.2.1 hback) hj.asymm

theorem highest_of_first {f : Fin 8 → Bool} {i : Fin 8} (hi : f i = true)
    (hbefore : ∀ j < i, f j = false) : highest f = some i := by
  cases h : highest f with
  | none => exact absurd hi (by rw [highest_eq_none h i]; decide)
  | some k =>
    rcases lt_trichotomy i k with hik | hik | hik
    · exact absurd hi (by rw [before_highest h hik]; decide)
    · rw [hik]
    · exact absurd (of_highest h) (by rw [hbefore k hik]; decide)

theorem highest_of_none {f : Fin 8 → Bool} (h : ∀ i, f i = false) : highest f = none := by
  cases hf : highest f with
  | none => rfl
  | some i => exact absurd (of_highest hf) (by rw [h i]; decide)

namespace Pic

variable {p : Pic} {i j : Fin 8}

/-- An edge on a line. -/
def raise (p : Pic) (i : Fin 8) : Pic := { p with pending := Function.update p.pending i true }

/-- The line that the chip asks the processor to serve. -/
def request (p : Pic) : Option (Fin 8) :=
  match highest fun i => p.pending i && !p.masked i with
  | some i => if ∀ j ≤ i, p.inService j = false then some i else none
  | none => none

/-- The processor acknowledges the line. -/
def serve (p : Pic) (i : Fin 8) : Pic :=
  { p with
    pending := Function.update p.pending i false
    inService := Function.update p.inService i true }

/-- The end of the interrupt with the highest priority. -/
def endOfInterrupt (p : Pic) : Pic :=
  match highest p.inService with
  | some i => { p with inService := Function.update p.inService i false }
  | none => p

/-- A byte at the command port. With bit 4 it begins the initialization. -/
def command (p : Pic) (v : UInt8) : Pic :=
  if v &&& 0x10 ≠ 0 then
    { p with
      pending := fun _ => false
      inService := fun _ => false
      masked := fun _ => false
      phase := .base
      single := v &&& 0x02 ≠ 0
      needsMode := v &&& 0x01 ≠ 0 }
  else if v = 0x20 then p.endOfInterrupt
  else p

/-- A byte at the data port. -/
def data (p : Pic) (v : UInt8) : Pic :=
  match p.phase with
  | .masks => { p with masked := fun i => v.toNat.testBit i }
  | .base =>
    { p with
      base := v &&& 0xF8
      phase := if p.single then (if p.needsMode then .mode else .masks) else .cascade }
  | .cascade => { p with cascade := v, phase := if p.needsMode then .mode else .masks }
  | .mode => { p with phase := .masks }

/-- The chip without its latches. -/
def settled (p : Pic) : Pic := { p with pending := fun _ => false }

@[simp] theorem settled_raise (p : Pic) (i : Fin 8) : (p.raise i).settled = p.settled := rfl

theorem settled_endOfInterrupt (p : Pic) :
    p.endOfInterrupt.settled = p.settled.endOfInterrupt := by
  have h : p.settled.inService = p.inService := rfl
  rw [endOfInterrupt, endOfInterrupt, h]
  cases highest p.inService with
  | none => rfl
  | some i => rfl

theorem settled_command (p : Pic) (v : UInt8) :
    (p.command v).settled = (p.settled.command v).settled := by
  unfold command
  split
  · rfl
  · split
    · rw [settled_endOfInterrupt, settled_endOfInterrupt]
      rfl
    · rfl

theorem settled_data (p : Pic) (v : UInt8) :
    (p.data v).settled = (p.settled.data v).settled := by
  have h : p.settled.phase = p.phase := rfl
  rw [data, data, h]
  cases p.phase <;> rfl

/-- What a request says. -/
theorem of_request (h : p.request = some i) :
    p.pending i = true ∧ p.masked i = false ∧ ∀ j ≤ i, p.inService j = false := by
  unfold request at h
  split at h
  · rename_i k hk
    split at h
    · cases h
      have hon := of_highest hk
      rw [Bool.and_eq_true, Bool.not_eq_true'] at hon
      exact ⟨hon.1, hon.2, ‹_›⟩
    · cases h
  · cases h

/-- A chip that serves nothing asks for the first of its open lines. -/
theorem request_idle (h : ∀ j, p.inService j = false) :
    p.request = highest fun i => p.pending i && !p.masked i := by
  unfold request
  split
  · next i hi => rw [if_pos fun j _ => h j, hi]
  · next hi => exact hi.symm

/-- The end of the interrupt ends the service that began last. -/
theorem endOfInterrupt_serve (h : ∀ j ≤ i, p.inService j = false) :
    (p.serve i).endOfInterrupt =
      { p with pending := Function.update p.pending i false } := by
  have hfirst : highest (p.serve i).inService = some i := by
    refine highest_of_first (Function.update_self ..) fun j hj => ?_
    exact (Function.update_of_ne hj.ne _ _).trans (h j hj.le)
  have hback : Function.update (Function.update p.inService i true) i false = p.inService := by
    rw [Function.update_idem]
    exact Function.update_eq_self_iff.mpr (h i le_rfl).symm
  rw [endOfInterrupt, hfirst]
  simp only [serve, hback]

end Pic

/-- The chips as they are wired. -/
@[ext] structure Pair where
  master : Pic
  slave : Pic

namespace Pair

variable {c : Pair}

/-- An edge on one of the sixteen lines. -/
def raise (c : Pair) (irq : Fin 16) : Pair :=
  if h : irq.val < 8 then { c with master := c.master.raise ⟨irq, h⟩ }
  else { c with slave := c.slave.raise ⟨irq - 8, by omega⟩ }

/-- Whether a line is latched. -/
def pending (c : Pair) (irq : Fin 16) : Bool :=
  if h : irq.val < 8 then c.master.pending ⟨irq, h⟩
  else c.slave.pending ⟨irq - 8, by omega⟩

/-- A byte at one of the four ports. Other ports are not the chips'. -/
def outb (c : Pair) (port : UInt16) (v : UInt8) : Pair :=
  if port = 0x20 then { c with master := c.master.command v }
  else if port = 0x21 then { c with master := c.master.data v }
  else if port = 0xA0 then { c with slave := c.slave.command v }
  else if port = 0xA1 then { c with slave := c.slave.data v }
  else c

/-- The master with the slave's request on line 2. -/
def joined (c : Pair) : Pic :=
  { c.master with
    pending := Function.update c.master.pending 2
      (c.master.pending 2 || c.slave.request.isSome) }

/-- The lines that come before all others. -/
abbrev line0 : Fin 8 := 0
abbrev line1 : Fin 8 := 1

/-- Whether the chips know of their wiring. -/
def linked (c : Pair) : Bool := c.master.cascade.toNat.testBit 2 && c.slave.cascade &&& 7 == 2

/-- The processor acknowledges an interrupt: its vector, and the chips behind. A slave that
has nothing to offer any more answers with its last line. -/
def acknowledge (c : Pair) : Option (UInt8 × Pair) :=
  match c.joined.request with
  | none => none
  | some i =>
    if i = 2 ∧ c.linked then
      match c.slave.request with
      | some j => some (c.slave.base + UInt8.ofNat j, ⟨c.master.serve i, c.slave.serve j⟩)
      | none => some (c.slave.base + 7, { c with master := c.master.serve i })
    else some (c.master.base + UInt8.ofNat i, { c with master := c.master.serve i })

/-- The chips without their latches. -/
def settled (c : Pair) : Pair := ⟨c.master.settled, c.slave.settled⟩

@[simp] theorem settled_raise (c : Pair) (irq : Fin 16) : (c.raise irq).settled = c.settled := by
  unfold raise
  split <;> rfl

/-- What the chips are set to depends on what they were set to. -/
theorem settled_outb (c : Pair) (port : UInt16) (v : UInt8) :
    (c.outb port v).settled = (c.settled.outb port v).settled := by
  unfold outb
  repeat' split
  · simp only [settled, Pic.settled_command c.master v]; rfl
  · simp only [settled, Pic.settled_data c.master v]; rfl
  · simp only [settled, Pic.settled_command c.slave v]; rfl
  · simp only [settled, Pic.settled_data c.slave v]; rfl
  · rfl

theorem pending_raise (c : Pair) (i irq : Fin 16) :
    (c.raise i).pending irq = (decide (i = irq) || c.pending irq) := by
  by_cases h : i = irq
  · subst h
    unfold raise pending
    split <;> simp [Pic.raise]
  · have hval : irq.val ≠ i.val := fun heq => h (Fin.ext heq.symm)
    rw [decide_eq_false h, Bool.false_or]
    unfold raise pending
    split
    case isTrue hirq =>
      split
      case isTrue hi =>
        have hne : (⟨irq, hirq⟩ : Fin 8) ≠ ⟨i, hi⟩ := by simpa [Fin.ext_iff] using hval
        exact Function.update_of_ne hne true c.master.pending
      case isFalse => rfl
    case isFalse hirq =>
      split
      case isTrue => rfl
      case isFalse hi =>
        have hne : (⟨irq - 8, by omega⟩ : Fin 8) ≠ ⟨i - 8, by omega⟩ := by
          intro heq
          have := congrArg Fin.val heq
          simp only at this
          omega
        exact Function.update_of_ne hne true c.slave.pending

theorem pending_serve (c : Pair) (i : Fin 8) (irq : Fin 16) :
    pending { c with master := c.master.serve i } irq =
      (decide (irq.val ≠ i.val) && c.pending irq) := by
  unfold pending
  split
  case isTrue hirq =>
    by_cases h : irq.val = i.val
    · have heq : (⟨irq, hirq⟩ : Fin 8) = i := Fin.ext h
      rw [heq, decide_eq_false (not_not_intro h), Bool.false_and]
      exact Function.update_self i false c.master.pending
    · have hne : (⟨irq, hirq⟩ : Fin 8) ≠ i := by simpa [Fin.ext_iff] using h
      rw [decide_eq_true h, Bool.true_and]
      exact Function.update_of_ne hne false c.master.pending
  case isFalse => rw [decide_eq_true (by omega), Bool.true_and]

theorem pending_endOfInterrupt (c : Pair) (irq : Fin 16) :
    (c.outb 0x20 0x20).pending irq = c.pending irq := by
  have h : c.master.endOfInterrupt.pending = c.master.pending := by
    unfold Pic.endOfInterrupt
    split <;> rfl
  have heoi : c.outb 0x20 0x20 = { c with master := c.master.endOfInterrupt } := rfl
  rw [heoi, pending, pending, h]

/-- While the slave's line is masked the slave is never heard. -/
theorem acknowledge_of_masked (h : c.master.masked 2 = true) :
    c.acknowledge = c.master.request.map fun i : Fin 8 =>
      (c.master.base + UInt8.ofNat i, { c with master := c.master.serve i }) := by
  have hopen : (fun i => c.joined.pending i && !c.joined.masked i) =
      fun i => c.master.pending i && !c.master.masked i := by
    funext i
    by_cases hi : i = 2
    · subst hi
      simp [joined, h]
    · simp [joined, Function.update_of_ne hi]
  have hrequest : c.joined.request = c.master.request := by
    rw [Pic.request, Pic.request, hopen]
    rfl
  rw [acknowledge, hrequest]
  cases hr : c.master.request with
  | none => rfl
  | some i =>
    have hi : i ≠ 2 := by
      rintro rfl
      exact absurd h (by rw [(Pic.of_request hr).2.1]; decide)
    simp only [hi, false_and, if_false]
    rfl

end Pair

end Lib.Pic8259
