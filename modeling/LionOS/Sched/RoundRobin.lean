import LionOS.Lib.Cyclic
import LionOS.Sched.Scheduler
import Mathlib.Data.List.GetD

/-!
# Round robin

`next_index` searches the ring from behind the current slot on, with the current slot last.
So the slots that are not blocked, read in this order, are the slots the next calls of
`tick` come to, one after the other, and the last is the current slot again.
-/

namespace LionOS.Sched

open Lib

namespace Scheduler

/-- Slot `i` is not blocked. -/
def runnable (tasks : List Pcb) (i : Nat) : Bool := selectable (tasks.getD i .new)

theorem selectable_iff {p : Pcb} : selectable p = true ↔ p.state ≠ .blocked := by
  unfold selectable
  cases p.state <;> decide

/-- The slots that are not blocked, in cyclic order from the one behind the current one. -/
def roundOrder (s : Scheduler) : List Nat :=
  visits (runnable s.tasks) s.tasks.length s.current

/-- Calls of `tick` in a row: the scheduler afterwards, and what each call returned with the
slot it left current. -/
def ticks : Nat → Scheduler → Scheduler × List (Bool × Nat)
  | 0, s => (s, [])
  | k + 1, s =>
    let (s, switched) := s.tick
    let (s', rest) := ticks k s
    (s', (switched, s.current) :: rest)

variable {tasks : List Pcb} {s : Scheduler} {c i k : Nat}

private theorem nextIndexFrom_eq (tasks : List Pcb) (c left step : Nat) :
    nextIndexFrom tasks c left step =
      ((List.range' step left).map fun k => (c + k) % tasks.length).find? (runnable tasks) := by
  induction left generalizing step with
  | zero => rfl
  | succ left ih =>
    rw [nextIndexFrom, List.range'_succ, List.map_cons, List.find?_cons, ih, runnable]
    cases selectable (tasks.getD ((c + step) % tasks.length) .new) with
    | false => simp
    | true => simp

/-- The search goes through the slots in cyclic order. -/
theorem nextIndex_eq (hc : c < tasks.length) :
    nextIndex tasks c = (behind tasks.length c).find? (runnable tasks) := by
  have horder : (List.range' 1 tasks.length).map (fun k => (c + k) % tasks.length) =
      behind tasks.length c := by
    apply List.ext_getElem
    · rw [List.length_map, List.length_range', length_behind hc]
    · intro k hk hk'
      rw [getElem_behind hc, List.getElem_map, List.getElem_range', Nat.one_mul, Nat.add_assoc]
  rw [nextIndex, nextIndexFrom_eq, horder]

/-- The number of slots that are not blocked is the length of a round. -/
theorem length_roundOrder (hc : s.current < s.tasks.length) :
    s.roundOrder.length = s.tasks.countP fun p => p.state ≠ .blocked := by
  have htasks : s.tasks = (List.range s.tasks.length).map fun i => s.tasks.getD i .new := by
    apply List.ext_getElem
    · simp
    · intro i hi hi'
      rw [List.getElem_map, List.getElem_range, List.getD_eq_getElem _ _ hi]
  have hcount : s.tasks.countP (fun p => p.state ≠ .blocked) =
      (List.range s.tasks.length).countP (runnable s.tasks) := by
    conv_lhs => rw [htasks, List.countP_map]
    apply List.countP_congr
    intro i _
    simp only [Function.comp_apply, decide_eq_true_eq, runnable]
    exact selectable_iff.symm
  rw [hcount, roundOrder, visits, ← List.countP_eq_length_filter, (behind_perm hc).countP_eq]

/-- A tick comes to the first slot of the round if that is another slot; the round from
there on is the rest, and the slot last. -/
theorem tick_of_cons {l : List Nat} (hstarted : s.started = true)
    (hc : s.current < s.tasks.length) (h : s.roundOrder = i :: l) (hi : i ≠ s.current) :
    s.tick = ({ s with current := i, switchPending := true }, true) ∧ i < s.tasks.length ∧
      roundOrder { s with current := i, switchPending := true } = l ++ [i] := by
  have hfind : (behind s.tasks.length s.current).find? (runnable s.tasks) = some i := by
    have hhead := congrArg List.head? h
    rwa [roundOrder, ← find?_behind] at hhead
  obtain ⟨l', hl, hnext⟩ := visits_of_find? hc hfind
  obtain rfl : l' = l := (List.cons.inj (hl.symm.trans h)).2
  refine ⟨?_, ((mem_visits hc).mp (hl ▸ List.mem_cons_self)).1, hnext⟩
  simp only [tick, hstarted, if_true, nextIndex_eq hc, hfind, ne_eq, hi, not_false_eq_true]

/-- A tick that finds the current slot only changes nothing. -/
theorem tick_of_alone (hc : s.current < s.tasks.length) (h : s.roundOrder = [s.current]) :
    s.tick = (s, false) := by
  have hfind : (behind s.tasks.length s.current).find? (runnable s.tasks) = some s.current := by
    have hhead := congrArg List.head? h
    rwa [roundOrder, ← find?_behind] at hhead
  cases hstarted : s.started with
  | false => simp only [tick, hstarted, Bool.false_eq_true, if_false]
  | true => simp [tick, hstarted, nextIndex_eq hc, hfind]

/-- The current slot is the last of its round if it is not blocked. -/
theorem roundOrder_concat (hrun : runnable s.tasks s.current = true) :
    ∃ l, s.roundOrder = l ++ [s.current] := visits_concat hrun

/-- Ticks go through the first slots of the round, each of which is another slot than the
one before. -/
private theorem ticks_of_prefix {l r : List Nat} (hstarted : s.started = true)
    (hc : s.current < s.tasks.length) (h : s.roundOrder = l ++ r) (hne : s.roundOrder.length ≠ 1) :
    ticks l.length s =
      ({ s with current := l.getLastD s.current, switchPending := s.switchPending || l ≠ [] },
        l.map fun i => (true, i)) := by
  induction l generalizing s r with
  | nil => simp [ticks]
  | cons i l ih =>
    rw [List.cons_append] at h
    have hi : i ≠ s.current := by
      rintro rfl
      have hrun := ((mem_visits hc).mp (h ▸ List.mem_cons_self : s.current ∈ s.roundOrder)).2
      obtain ⟨l', hl'⟩ := roundOrder_concat hrun
      have hnodup : s.roundOrder.Nodup := nodup_visits hc
      cases l' with
      | nil => exact hne (by rw [hl']; rfl)
      | cons j l' =>
        rw [hl', List.cons_append] at h
        obtain ⟨rfl, -⟩ := List.cons.inj h
        rw [hl', List.cons_append, List.nodup_cons] at hnodup
        exact hnodup.1 (by simp)
    obtain ⟨htick, hlt, hround⟩ := tick_of_cons hstarted hc h hi
    rw [List.append_assoc] at hround
    have hlen : (roundOrder { s with current := i, switchPending := true }).length ≠ 1 := by
      rw [h] at hne
      rw [hround]
      simpa [Nat.add_comm, Nat.add_assoc] using hne
    have hrest := ih (s := { s with current := i, switchPending := true }) hstarted hlt hround hlen
    rw [List.length_cons, ticks, htick]
    dsimp only
    rw [hrest, List.getLastD_cons]
    simp

/-- **Round robin visits every slot that is not blocked once a round.** For every ring, a
started scheduler and a current slot that is not blocked: if `k ≥ 2` slots are not blocked,
`k` calls of `tick` all return true and leave current, one after the other, the slots of
the round, which are the slots that are not blocked, each once, in cyclic order from behind
the current one. Then the current slot is what it was, and only the request to switch is
set. If the current slot is the only one that is not blocked, `tick` returns false and
changes nothing. -/
theorem round_robin (hstarted : s.started = true) (hc : s.current < s.tasks.length)
    (hrun : (s.tasks.getD s.current .new).state ≠ .blocked) {k : Nat}
    (hk : s.tasks.countP (fun p => p.state ≠ .blocked) = k) :
    (2 ≤ k → ticks k s = ({ s with switchPending := true }, s.roundOrder.map fun i => (true, i)) ∧
        s.roundOrder.Nodup ∧
        (∀ i, i ∈ s.roundOrder ↔ i < s.tasks.length ∧ (s.tasks.getD i .new).state ≠ .blocked) ∧
        s.roundOrder.Sublist (List.range' (s.current + 1) (s.tasks.length - (s.current + 1)) ++
          List.range (s.current + 1))) ∧
      (k = 1 → s.tick = (s, false)) := by
  have hlen := (length_roundOrder hc).trans hk
  obtain ⟨l, hl⟩ := roundOrder_concat (selectable_iff.mpr hrun)
  constructor
  · intro hk2
    refine ⟨?_, nodup_visits hc, fun i => ?_, List.filter_sublist⟩
    · have hticks := ticks_of_prefix (r := []) hstarted hc (List.append_nil _).symm (by omega)
      have hnil : s.roundOrder ≠ [] := by rw [hl]; simp
      rw [hlen] at hticks
      rw [hticks]
      simp [hl]
    · rw [roundOrder, mem_visits hc, runnable, selectable_iff]
  · intro hk1
    apply tick_of_alone hc
    rw [hl, List.length_append, List.length_singleton, hk1] at hlen
    have hnil : l = [] := List.length_eq_zero_iff.mp (by omega)
    rw [hl, hnil, List.nil_append]

/-- A ring of four slots of which the second is blocked, from the third slot on. -/
def blockedRing : Scheduler := ⟨[.new, ⟨.blocked, 0⟩, .new, .new], 2, 0, true, false, 3⟩

theorem round_robin_blockedRing :
    ticks 3 blockedRing =
      ({ blockedRing with switchPending := true }, [(true, 3), (true, 0), (true, 2)]) :=
  ((round_robin (s := blockedRing) rfl (by decide) (by decide) rfl).1 (by decide)).1

end Scheduler

end LionOS.Sched
