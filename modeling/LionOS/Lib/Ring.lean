import Mathlib.Data.List.Basic
import Mathlib.Data.Nat.ModEq

/-!
# Ring buffers

A list of slots read as a ring: the values of a queue lie in consecutive slots from one index
on, past the last slot back to the first, and every other slot is empty. A value is put in
behind the others and taken out in front, and as long as one slot is kept free, the two
indices tell how many values there are.
-/

namespace Lib

universe u

variable {α : Type u} {slots : List (Option α)} {head tail i k n : Nat} {x : α} {xs : List α}

/-- The values `xs` lie in the slots from `head` on, and the other slots are empty. -/
def Queued (slots : List (Option α)) (head : Nat) (xs : List α) : Prop :=
  ∀ i < slots.length, slots[(head + i) % slots.length]? = some xs[i]?

/-- Two indices less than a turn apart are two slots. -/
theorem ring_index_inj (hi : i < n) (hk : k < n) (h : (head + i) % n = (head + k) % n) :
    i = k := by
  have hmod : i ≡ k [MOD n] := Nat.ModEq.add_left_cancel' head h
  exact Nat.ModEq.eq_of_lt_of_lt hmod hi hk

/-- Every slot is some distance behind `head`. -/
theorem exists_ring_index (head : Nat) (hk : k < n) : ∃ i < n, (head + i) % n = k := by
  have hn : 0 < n := by omega
  have hlt := Nat.mod_lt head hn
  refine ⟨(n - head % n + k) % n, Nat.mod_lt _ hn, ?_⟩
  rw [Nat.add_mod_mod, ← Nat.mod_add_mod, ← Nat.add_assoc, ← Nat.add_sub_assoc hlt.le,
    Nat.add_sub_cancel_left, Nat.add_mod_left, Nat.mod_eq_of_lt hk]

/-- The distance from the front to the index behind the last of `k` values is `k`. -/
theorem ring_length (hhead : head < n) (hk : k < n) :
    (n + (head + k) % n - head) % n = k := by
  by_cases hlt : head + k < n
  · rw [Nat.mod_eq_of_lt hlt, ← Nat.add_assoc, Nat.add_right_comm, Nat.add_sub_cancel,
      Nat.add_mod_left, Nat.mod_eq_of_lt hk]
  · have hwrap : (head + k) % n = head + k - n := by
      rw [Nat.mod_eq_sub_mod (by omega), Nat.mod_eq_of_lt (by omega)]
    have hsum : n + (head + k - n) - head = k := by omega
    rw [hwrap, hsum, Nat.mod_eq_of_lt hk]

/-- The indices are the same exactly when there is no value. -/
theorem ring_index_eq_iff (hhead : head < n) (hk : k < n) : head = (head + k) % n ↔ k = 0 := by
  constructor
  · intro h
    have hsame : (head + k) % n = (head + 0) % n := by
      rw [← h, Nat.add_zero, Nat.mod_eq_of_lt hhead]
    exact ring_index_inj hk (by omega) hsame
  · rintro rfl
    rw [Nat.add_zero, Nat.mod_eq_of_lt hhead]

theorem queued_replicate (n head : Nat) :
    Queued (List.replicate n (none : Option α)) head [] := by
  intro i hi
  rw [List.length_replicate] at hi ⊢
  rw [List.getElem?_replicate_of_lt (Nat.mod_lt _ (by omega)), List.getElem?_nil]

/-- A value put into the slot behind the last one is the last one. -/
theorem Queued.push (h : Queued slots head xs) (hlen : xs.length < slots.length) (x : α) :
    Queued (slots.set ((head + xs.length) % slots.length) (some x)) head (xs ++ [x]) := by
  intro i hi
  rw [List.length_set] at hi ⊢
  by_cases hlast : i = xs.length
  · subst hlast
    rw [List.getElem?_set_self (Nat.mod_lt _ (by omega)), List.getElem?_concat_length]
  · have hslot : (head + xs.length) % slots.length ≠ (head + i) % slots.length :=
      fun heq => hlast (ring_index_inj hlen hi heq).symm
    rw [List.getElem?_set_ne hslot, h i hi]
    by_cases hlt : i < xs.length
    · rw [List.getElem?_append_left hlt]
    · have hbeyond : (xs ++ [x]).length ≤ i := by
        rw [List.length_append, List.length_singleton]
        omega
      rw [List.getElem?_eq_none hbeyond, List.getElem?_eq_none (by omega)]

/-- With the first value taken out of its slot, the rest lies behind it. -/
theorem Queued.pop (h : Queued slots head (x :: xs)) (hhead : head < slots.length)
    (hlen : xs.length + 1 ≤ slots.length) :
    Queued (slots.set head none) ((head + 1) % slots.length) xs := by
  intro i hi
  rw [List.length_set] at hi ⊢
  have hindex : ((head + 1) % slots.length + i) % slots.length
      = (head + (i + 1)) % slots.length := by
    rw [Nat.mod_add_mod, Nat.add_assoc, Nat.add_comm 1]
  rw [hindex]
  by_cases hturn : i + 1 = slots.length
  · rw [hturn, Nat.add_mod_right, Nat.mod_eq_of_lt hhead, List.getElem?_set_self hhead,
      List.getElem?_eq_none (by omega)]
  · have hslot : head ≠ (head + (i + 1)) % slots.length := by
      intro heq
      have hzero := (ring_index_eq_iff hhead (k := i + 1) (by omega)).mp heq
      omega
    rw [List.getElem?_set_ne hslot, h (i + 1) (by omega), List.getElem?_cons_succ]

end Lib
