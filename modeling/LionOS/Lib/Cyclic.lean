import Mathlib.Data.List.Rotate
import Mathlib.Data.List.Range

/-!
# Cyclic search

The indices of a ring in cyclic order, starting behind one of them, which is last. A search
for the first index that satisfies a predicate and a search from there on, and so on, visit
the indices that satisfy it one after the other: each search rotates what is to come.
-/

namespace Lib

/-- The indices below `n` in cyclic order, from the one behind `c` on. -/
def behind (n c : Nat) : List Nat := List.range' (c + 1) (n - (c + 1)) ++ List.range (c + 1)

variable {n c i k : Nat} {p : Nat → Bool}

theorem behind_eq_rotate (hc : c < n) : behind n c = (List.range n).rotate (c + 1) := by
  have hn : c + 1 + (n - (c + 1)) = n := by omega
  have hsplit : List.range n = List.range (c + 1) ++ List.range' (c + 1) (n - (c + 1)) := by
    have happend := @List.range'_append_1 0 (c + 1) (n - (c + 1))
    rw [Nat.zero_add, hn] at happend
    rw [List.range_eq_range', List.range_eq_range', happend]
  have hrotate := List.rotate_append_length_eq (List.range (c + 1))
    (List.range' (c + 1) (n - (c + 1)))
  rw [List.length_range, ← hsplit] at hrotate
  exact hrotate.symm

theorem behind_perm (hc : c < n) : (behind n c).Perm (List.range n) := by
  rw [behind_eq_rotate hc]
  exact List.rotate_perm ..

@[simp] theorem length_behind (hc : c < n) : (behind n c).length = n := by
  rw [(behind_perm hc).length_eq, List.length_range]

theorem getElem_behind (hc : c < n) (h : k < (behind n c).length) :
    (behind n c)[k] = (c + 1 + k) % n := by
  simp only [behind_eq_rotate hc, List.getElem_rotate, List.getElem_range, List.length_range]
  rw [Nat.add_comm]

/-- The index itself comes last. -/
theorem behind_concat (n c : Nat) :
    behind n c = List.range' (c + 1) (n - (c + 1)) ++ List.range c ++ [c] := by
  rw [behind, List.range_succ, List.append_assoc]

/-- From a later index on, the order is the rest followed by what came before. -/
theorem behind_of_split {before after : List Nat} (hc : c < n)
    (h : behind n c = before ++ i :: after) : behind n i = after ++ before ++ [i] := by
  have hlen := length_behind hc
  have hk : before.length < (behind n c).length := by
    rw [h]
    simp
  have hi : i = (c + 1 + before.length) % n := by
    rw [← getElem_behind hc hk]
    simp [h]
  have hin : i < n := by
    rw [hi]
    exact Nat.mod_lt _ (by omega)
  calc behind n i = (List.range n).rotate (i + 1) := behind_eq_rotate hin
    _ = (List.range n).rotate (c + 1 + (before.length + 1)) := by
      rw [← List.rotate_mod, ← List.rotate_mod _ (c + 1 + (before.length + 1)), List.length_range,
        hi, Nat.mod_add_mod, Nat.add_assoc]
    _ = (behind n c).rotate (before.length + 1) := by
      rw [behind_eq_rotate hc, List.rotate_rotate]
    _ = after ++ before ++ [i] := by
      have hsplit : before ++ i :: after = (before ++ [i]) ++ after := by simp
      have hlast : before.length + 1 = (before ++ [i]).length := by simp
      rw [h, hsplit, hlast, List.rotate_append_length_eq, List.append_assoc]

/-- The indices that satisfy `p`, in cyclic order from the one behind `c` on. -/
def visits (p : Nat → Bool) (n c : Nat) : List Nat := (behind n c).filter p

theorem mem_visits (hc : c < n) : i ∈ visits p n c ↔ i < n ∧ p i = true := by
  rw [visits, List.mem_filter, (behind_perm hc).mem_iff, List.mem_range]

theorem nodup_visits (hc : c < n) : (visits p n c).Nodup :=
  ((behind_perm hc).nodup_iff.mpr List.nodup_range).filter p

/-- An index that satisfies the predicate is visited last, from itself on. -/
theorem visits_concat (hp : p c = true) : ∃ l, visits p n c = l ++ [c] := by
  refine ⟨(List.range' (c + 1) (n - (c + 1)) ++ List.range c).filter p, ?_⟩
  rw [visits, behind_concat, List.filter_append, List.filter_cons_of_pos hp, List.filter_nil]

/-- A search that finds an index visits the first one, and comes to it again last. -/
theorem visits_of_find? (hc : c < n) (h : (behind n c).find? p = some i) :
    ∃ l, visits p n c = i :: l ∧ visits p n i = l ++ [i] := by
  obtain ⟨hi, before, after, hsplit, hbefore⟩ := List.find?_eq_some_iff_append.mp h
  have hnone : before.filter p = [] := by
    rw [List.filter_eq_nil_iff]
    intro a ha
    simpa using hbefore a ha
  refine ⟨after.filter p, ?_, ?_⟩
  · rw [visits, hsplit, List.filter_append, hnone, List.filter_cons_of_pos hi, List.nil_append]
  · rw [visits, behind_of_split hc hsplit, List.filter_append, List.filter_append, hnone,
      List.filter_cons_of_pos hi, List.append_nil, List.filter_nil]

/-- The search finds the first of the indices to visit. -/
theorem find?_behind : (behind n c).find? p = (visits p n c).head? := by
  rw [visits, List.head?_filter]

end Lib
