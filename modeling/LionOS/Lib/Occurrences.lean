import Mathlib.Data.List.Nodup
import Mathlib.Tactic.Common

/-!
# Places in a list of rows

What is kept of the rows, put one behind the other, has no duplicates exactly if nothing that is
kept stands in two places.
-/

namespace Lib

variable {α : Type*} {p : α → Bool} {a : α} {l : List α} {rows : List (List α)} {i j : Nat}

/-- What stands in a column of a row. -/
def entryAt (rows : List (List α)) (i j : Nat) : Option α := rows[i]?.bind (·[j]?)

@[simp] theorem entryAt_cons_zero : entryAt (l :: rows) 0 j = l[j]? := rfl

@[simp] theorem entryAt_cons_succ : entryAt (l :: rows) (i + 1) j = entryAt rows i j := rfl

theorem entryAt_eq_some :
    entryAt rows i j = some a ↔ ∃ l, rows[i]? = some l ∧ l[j]? = some a :=
  Option.bind_eq_some_iff

theorem mem_flatten_iff_entryAt : a ∈ rows.flatten ↔ ∃ i j, entryAt rows i j = some a := by
  rw [List.mem_flatten]
  constructor
  · rintro ⟨l, hl, ha⟩
    obtain ⟨i, hi⟩ := List.mem_iff_getElem?.mp hl
    obtain ⟨j, hj⟩ := List.mem_iff_getElem?.mp ha
    exact ⟨i, j, entryAt_eq_some.mpr ⟨l, hi, hj⟩⟩
  · rintro ⟨i, j, h⟩
    obtain ⟨l, hi, hj⟩ := entryAt_eq_some.mp h
    exact ⟨l, List.mem_of_getElem? hi, List.mem_of_getElem? hj⟩

/-- What is kept of a row stands in one place of it. -/
def Once (p : α → Bool) (l : List α) : Prop :=
  ∀ (j j' : Nat) (a : α), p a = true → l[j]? = some a → l[j']? = some a → j = j'

theorem once_cons {b : α} : Once p (b :: l) ↔ (p b = true → b ∉ l) ∧ Once p l := by
  constructor
  · intro h
    refine ⟨fun hb hmem => ?_, fun j j' a ha hj hj' => ?_⟩
    · obtain ⟨j, hj⟩ := List.mem_iff_getElem?.mp hmem
      exact Nat.succ_ne_zero j (h (j + 1) 0 b hb hj rfl)
    · exact Nat.succ.inj (h (j + 1) (j' + 1) a ha hj hj')
  · rintro ⟨hfirst, hrest⟩ j j' a ha hj hj'
    cases j with
    | zero =>
      obtain rfl : b = a := Option.some.inj hj
      cases j' with
      | zero => rfl
      | succ j' => exact absurd (List.mem_of_getElem? (l := l) hj') (hfirst ha)
    | succ j =>
      cases j' with
      | zero =>
        obtain rfl : b = a := Option.some.inj hj'
        exact absurd (List.mem_of_getElem? (l := l) hj) (hfirst ha)
      | succ j' => exact congrArg (· + 1) (hrest j j' a ha hj hj')

/-- One row. -/
theorem nodup_filter_iff : (l.filter p).Nodup ↔ Once p l := by
  induction l with
  | nil => simp [Once]
  | cons b l ih =>
    rw [once_cons, ← ih]
    by_cases hb : p b = true
    · rw [List.filter_cons_of_pos hb, List.nodup_cons, List.mem_filter]
      simp [hb]
    · rw [List.filter_cons_of_neg hb]
      simp [hb]

/-- All rows. The induction takes the first row off: it has nothing twice, the others have not,
and nothing is in both. -/
theorem nodup_filter_flatten_iff :
    (rows.flatten.filter p).Nodup ↔ ∀ i j i' j' a, p a = true → entryAt rows i j = some a →
      entryAt rows i' j' = some a → i = i' ∧ j = j' := by
  induction rows with
  | nil => simp [entryAt]
  | cons l rows ih =>
    rw [List.flatten_cons, List.filter_append, List.nodup_append, nodup_filter_iff, ih]
    constructor
    · rintro ⟨hrow, hrest, hapart⟩ i j i' j' a ha h h'
      have hcross : ∀ i j j' : Nat, l[j]? = some a → entryAt rows i j' = some a → False := by
        intro i j j' hl hr
        exact hapart a (List.mem_filter.mpr ⟨List.mem_of_getElem? hl, ha⟩) a
          (List.mem_filter.mpr ⟨mem_flatten_iff_entryAt.mpr ⟨i, j', hr⟩, ha⟩) rfl
      cases i with
      | zero =>
        cases i' with
        | zero => exact ⟨rfl, hrow j j' a ha h h'⟩
        | succ i' => exact (hcross i' j j' h h').elim
      | succ i =>
        cases i' with
        | zero => exact (hcross i j' j h' h).elim
        | succ i' =>
          obtain ⟨hi, hj⟩ := hrest i j i' j' a ha h h'
          exact ⟨congrArg (· + 1) hi, hj⟩
    · intro h
      refine ⟨fun j j' a ha hj hj' => (h 0 j 0 j' a ha hj hj').2, ?_, ?_⟩
      · intro i j i' j' a ha hi hi'
        obtain ⟨heq, hj⟩ := h (i + 1) j (i' + 1) j' a ha hi hi'
        exact ⟨Nat.succ.inj heq, hj⟩
      · rintro a hl b hr rfl
        obtain ⟨hmem, ha⟩ := List.mem_filter.mp hl
        obtain ⟨j, hj⟩ := List.mem_iff_getElem?.mp hmem
        obtain ⟨i, j', hr⟩ := mem_flatten_iff_entryAt.mp (List.mem_filter.mp hr).1
        exact Nat.succ_ne_zero i (h (i + 1) j' 0 j a ha hr hj).1

end Lib
