import Mathlib.Data.Nat.Basic
import Mathlib.Tactic.Ring

/-!
# Counting loops with a 32-bit counter

`for (i = start; test(i); i++) { ... }` where a turn may leave the loop. The counter wraps,
so the loop may run for ever; with `fuel` turns it has an outcome or has run out.
-/

namespace Lib

variable {α : Type}

/-- What one turn does: leave the loop, or add to the output and go on. -/
inductive Turn (α : Type) where
  | leave
  | emit (out : List α)

/-- The loop from counter `i` on; `none` if it needs more than `fuel` tests. -/
def cFor (test : Nat → Bool) (turn : Nat → Option (Turn α)) : (fuel i : Nat) → Option (List α)
  | 0, _ => none
  | fuel + 1, i =>
    if test i then
      match turn i with
      | none => none
      | some .leave => some []
      | some (.emit out) => (cFor test turn fuel ((i + 1) % 2 ^ 32)).map (out ++ ·)
    else some []

variable {test : Nat → Bool} {turn : Nat → Option (Turn α)}

/-- A loop that is left at some counter value, at the latest, comes to an end. -/
theorem cFor_isSome {fuel i limit : Nat} (hi : i ≤ limit) (hlimit : limit < 2 ^ 32)
    (hturn : ∀ j, j < limit → (turn j).isSome)
    (hleave : test limit = false ∨ turn limit = some .leave) (hfuel : limit - i < fuel) :
    (cFor test turn fuel i).isSome := by
  induction fuel generalizing i with
  | zero => omega
  | succ fuel ih =>
    rw [cFor]
    by_cases heq : i = limit
    · subst heq
      rcases hleave with htest | hbreak
      · simp [htest]
      · split
        · simp [hbreak]
        · rfl
    · split
      · obtain ⟨t, ht⟩ := Option.isSome_iff_exists.mp (hturn i (by omega))
        rw [ht]
        cases t with
        | leave => rfl
        | emit out =>
          dsimp only
          rw [Option.isSome_map, Nat.mod_eq_of_lt (by omega)]
          exact ih (by omega) (by omega)
      · rfl

/-- All output comes from turns of the loop. -/
theorem mem_cFor {fuel i : Nat} {out : List α} {a : α} (h : cFor test turn fuel i = some out)
    (ha : a ∈ out) : ∃ j o, turn j = some (.emit o) ∧ a ∈ o := by
  induction fuel generalizing i out with
  | zero => simp [cFor] at h
  | succ fuel ih =>
    rw [cFor] at h
    split at h
    · split at h
      · cases h
      · obtain rfl := Option.some.inj h
        cases ha
      next o ho =>
        obtain ⟨rest, hrest, rfl⟩ := Option.map_eq_some_iff.mp h
        rcases List.mem_append.mp ha with ha | ha
        · exact ⟨i, o, ho, ha⟩
        · exact ih hrest ha
    · obtain rfl := Option.some.inj h
      cases ha

end Lib
