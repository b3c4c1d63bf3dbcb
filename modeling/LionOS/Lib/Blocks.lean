import LionOS.Lib.Memory

/-!
# Copying blocks of rows

A rectangle of a two-dimensional array is a number of rows of bytes that start a fixed
distance apart. As long as a row is not longer than that distance, the rows do not meet, nor
do the cells a row is made of. A rectangle is copied row by row, from one array to another with
a distance of its own.
-/

namespace Lib

variable {m m' : Mem} {a a' p p' n k j i t x : Nat}

/-- The cells of `n` bytes of a grid, `w` to a row, do not meet. -/
theorem grid_cells_apart {w x y x' y' : Nat} (hrow : w * n ≤ p) (hx : x < w) (hx' : x' < w)
    (hne : (x, y) ≠ (x', y')) :
    y * p + x * n + n ≤ y' * p + x' * n ∨ y' * p + x' * n + n ≤ y * p + x * n := by
  have hcell : ∀ {x}, x < w → x * n + n ≤ p := fun hx => by
    rw [← Nat.succ_mul]
    exact (Nat.mul_le_mul_right n hx).trans hrow
  have hnext : ∀ {y y' q}, y < y' → y * q + q ≤ y' * q := fun h => by
    rw [← Nat.succ_mul]
    exact Nat.mul_le_mul_right _ h
  have hxn := hcell hx
  have hxn' := hcell hx'
  rcases Nat.lt_trichotomy y y' with hy | rfl | hy
  · have hrows := hnext (q := p) hy
    omega
  · rcases Nat.lt_trichotomy x x' with h | rfl | h
    · have hcols := hnext (q := n) h
      omega
    · exact absurd rfl hne
    · have hcols := hnext (q := n) h
      omega
  · have hrows := hnext (q := p) hy
    omega

/-- The `n` bytes of `m'` from `a'` on, copied to `a`. -/
def copyBytes (m : Mem) (a : Nat) (m' : Mem) (a' n : Nat) : Mem :=
  fun x => if a ≤ x ∧ x < a + n then m' (a' + (x - a)) else m x

theorem copyBytes_inside (hi : i < n) : copyBytes m a m' a' n (a + i) = m' (a' + i) := by
  rw [copyBytes, if_pos ⟨Nat.le_add_right .., Nat.add_lt_add_left hi a⟩, Nat.add_sub_cancel_left]

theorem copyBytes_outside (h : x < a ∨ a + n ≤ x) : copyBytes m a m' a' n x = m x :=
  if_neg fun hin => by omega

/-! ## Copying inside one memory

Byte by byte, the block that is copied grows at one end. The byte that comes next is still the
original one, if the block has not reached it.
-/

theorem copyBytes_zero (m : Mem) (a a' : Nat) : copyBytes m a m a' 0 = m := by
  funext x
  exact copyBytes_outside (by omega)

/-- The next byte behind the block. -/
theorem copyBytes_succ (h : a' + k < a ∨ a ≤ a') :
    Function.update (copyBytes m a m a' k) (a + k) (copyBytes m a m a' k (a' + k)) =
      copyBytes m a m a' (k + 1) := by
  funext x
  have hnext : copyBytes m a m a' k (a' + k) = m (a' + k) := copyBytes_outside (by omega)
  rw [Function.update_apply, hnext]
  split
  next heq =>
    rw [heq, copyBytes_inside (Nat.lt_succ_self k)]
  next hne =>
    simp only [copyBytes]
    split
    · rw [if_pos (by omega)]
    · rw [if_neg (by omega)]

/-- The next byte in front of the block. -/
theorem copyBytes_pred (h : a' ≤ a) :
    Function.update (copyBytes m (a + 1) m (a' + 1) k) a
        (copyBytes m (a + 1) m (a' + 1) k a') = copyBytes m a m a' (k + 1) := by
  funext x
  have hnext : copyBytes m (a + 1) m (a' + 1) k a' = m a' := copyBytes_outside (by omega)
  rw [Function.update_apply, hnext]
  split
  next heq =>
    have hfirst : copyBytes m a m a' (k + 1) (a + 0) = m (a' + 0) :=
      copyBytes_inside (Nat.succ_pos k)
    rw [heq]
    exact hfirst.symm
  next hne =>
    simp only [copyBytes]
    split
    next hin =>
      have hoff : a' + 1 + (x - (a + 1)) = a' + (x - a) := by omega
      rw [if_pos (by omega), hoff]
    · rw [if_neg (by omega)]

/-- The first `k` rows of `n` bytes, `p'` apart in `m'` and `p` apart where they go. -/
def copyRows (m : Mem) (a p : Nat) (m' : Mem) (a' p' n : Nat) : Nat → Mem
  | 0 => m
  | k + 1 => copyBytes (copyRows m a p m' a' p' n k) (a + k * p) m' (a' + k * p') n

/-- A copied row is the row it was copied from. -/
theorem copyRows_inside (hn : n ≤ p) (hj : j < k) (hi : i < n) :
    copyRows m a p m' a' p' n k (a + j * p + i) = m' (a' + j * p' + i) := by
  induction k with
  | zero => exact absurd hj (Nat.not_lt_zero j)
  | succ k ih =>
    rw [copyRows]
    by_cases hjk : j = k
    · subst hjk
      exact copyBytes_inside hi
    · have hrow : j * p + p ≤ k * p := by
        rw [← Nat.succ_mul]
        exact Nat.mul_le_mul_right p (by omega)
      rw [copyBytes_outside (by omega)]
      exact ih (by omega)

/-- Only the rows change. -/
theorem copyRows_outside (h : ∀ j < k, x < a + j * p ∨ a + j * p + n ≤ x) :
    copyRows m a p m' a' p' n k x = m x := by
  induction k with
  | zero => rfl
  | succ k ih =>
    rw [copyRows, copyBytes_outside (h k (Nat.lt_succ_self k))]
    exact ih fun j hj => h j (Nat.lt_succ_of_lt hj)

/-- Numbers stored with the same bytes are the same. -/
theorem readLE_eq_of_bytes (h : ∀ i < t, m (a + i) = m' (a' + i)) :
    readLE m a t = readLE m' a' t := by
  induction t generalizing a a' with
  | zero => rfl
  | succ t ih =>
    have hfirst : m a = m' a' := h 0 (Nat.succ_pos t)
    have hrest : readLE m (a + 1) t = readLE m' (a' + 1) t := by
      refine ih fun i hi => ?_
      rw [Nat.add_assoc, Nat.add_assoc, Nat.add_comm 1 i]
      exact h (i + 1) (Nat.succ_lt_succ hi)
    rw [readLE, readLE, hfirst, hrest]

/-- A number inside a copied row is the one inside the row it was copied from. -/
theorem readLE_copyRows (hn : n ≤ p) (hj : j < k) (hi : i + t ≤ n) :
    readLE (copyRows m a p m' a' p' n k) (a + j * p + i) t = readLE m' (a' + j * p' + i) t := by
  refine readLE_eq_of_bytes fun s hs => ?_
  rw [Nat.add_assoc, Nat.add_assoc _ i]
  exact copyRows_inside hn hj (by omega)

end Lib
