import Mathlib.Data.List.Sort

/-!
# Sorting by a key

An unstable sort promises a permutation in the order of the keys and says nothing about
equal keys, so a program that sorts is a function of the sort it is given.
-/

namespace Lib

/-- Any sort by `key`: the order of elements with equal keys is unspecified. -/
structure KeySort {α : Type*} (key : α → Nat) where
  sort : List α → List α
  perm : ∀ l, (sort l).Perm l
  sorted : ∀ l, (sort l).Pairwise fun a b => key a ≤ key b

/-- Insertion sort is one of them. -/
def KeySort.insertion {α : Type*} (key : α → Nat) : KeySort key where
  sort := List.insertionSort fun a b => key a ≤ key b
  perm := List.perm_insertionSort _
  sorted l := by
    have : Std.Total fun a b : α => key a ≤ key b := ⟨fun a b => Nat.le_total ..⟩
    have : IsTrans α fun a b => key a ≤ key b := ⟨fun a b c => Nat.le_trans⟩
    exact List.pairwise_insertionSort _ l

end Lib
