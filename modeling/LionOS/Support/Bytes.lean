import LionOS.Lib.Blocks

/-!
# The C byte routines

`lion_memset`, `lion_memcpy` and `lion_memmove` of `support.c`. A pointer is a 64-bit word, so a
step past the last address leads to the first: the end of a range may be `2 ^ 64`, and the
comparison of `lion_memmove` then sees it as zero.
-/

namespace LionOS.Support

open Lib

/-- `p++`. -/
def incr (p : Nat) : Nat := (p + 1) % 2 ^ 64

/-- `--p`. -/
def decr (p : Nat) : Nat := if p = 0 then 2 ^ 64 - 1 else p - 1

/-- The loop of `lion_memset`. -/
def fillLoop (m : Mem) (c : UInt8) : (n d : Nat) → Mem
  | 0, _ => m
  | n + 1, d => fillLoop (Function.update m d c) c n (incr d)

/-- `while (n--) *d++ = *s++;` -/
def copyUp (m : Mem) : (n d s : Nat) → Mem
  | 0, _, _ => m
  | n + 1, d, s => copyUp (Function.update m d (m s)) n (incr d) (incr s)

/-- `while (n--) *--d = *--s;` -/
def copyDown (m : Mem) : (n d s : Nat) → Mem
  | 0, _, _ => m
  | n + 1, d, s => copyDown (Function.update m (decr d) (m (decr s))) n (decr d) (decr s)

/-- Each routine returns the memory it leaves and `dst`. -/
def lionMemset (m : Mem) (dst : Nat) (c : Int) (n : Nat) : Mem × Nat :=
  (fillLoop m (UInt8.ofNat (c % 256).toNat) n dst, dst)

def lionMemcpy (m : Mem) (dst src n : Nat) : Mem × Nat := (copyUp m n dst src, dst)

def lionMemmove (m : Mem) (dst src n : Nat) : Mem × Nat :=
  if dst < src ∨ (src + n) % 2 ^ 64 ≤ dst then (copyUp m n dst src, dst)
  else (copyDown m n ((dst + n) % 2 ^ 64) ((src + n) % 2 ^ 64), dst)

variable {m : Mem} {dst src n k d s : Nat}

theorem decr_succ (h : d + 1 ≤ 2 ^ 64) : decr ((d + 1) % 2 ^ 64) = d := by
  unfold decr
  split <;> omega

/-- `k` bytes are copied already; the byte that is read next is not one of them. -/
theorem copyUp_copyBytes (hd : d + (k + n) ≤ 2 ^ 64) (hs : s + (k + n) ≤ 2 ^ 64)
    (hapart : s + (k + n) ≤ d ∨ d ≤ s) :
    copyUp (copyBytes m d m s k) n ((d + k) % 2 ^ 64) ((s + k) % 2 ^ 64) =
      copyBytes m d m s (k + n) := by
  induction n generalizing k with
  | zero => rfl
  | succ n ih =>
    have hdst : (d + k) % 2 ^ 64 = d + k := Nat.mod_eq_of_lt (by omega)
    have hsrc : (s + k) % 2 ^ 64 = s + k := Nat.mod_eq_of_lt (by omega)
    have hlen : k + 1 + n = k + (n + 1) := by omega
    rw [hdst, hsrc, copyUp, copyBytes_succ (by omega), ← hlen]
    exact ih (by omega) (by omega) (by omega)

/-- The last `k` bytes are copied already. -/
theorem copyDown_copyBytes (hd : d + n ≤ 2 ^ 64) (hs : s + n ≤ 2 ^ 64) (hle : s ≤ d) :
    copyDown (copyBytes m (d + n) m (s + n) k) n ((d + n) % 2 ^ 64) ((s + n) % 2 ^ 64) =
      copyBytes m d m s (k + n) := by
  induction n generalizing k with
  | zero => rfl
  | succ n ih =>
    have hdst : (d + n) % 2 ^ 64 = d + n := Nat.mod_eq_of_lt (by omega)
    have hsrc : (s + n) % 2 ^ 64 = s + n := Nat.mod_eq_of_lt (by omega)
    have hrest := ih (k := k + 1) (by omega) (by omega)
    have hlen : k + 1 + n = k + (n + 1) := by omega
    rw [hdst, hsrc, hlen] at hrest
    rw [← Nat.add_assoc] at hd hs
    rw [← Nat.add_assoc d, ← Nat.add_assoc s, copyDown, decr_succ hd, decr_succ hs,
      copyBytes_pred (by omega)]
    exact hrest

/-- A forward copy is right if the source does not lie in front of the destination and reach
into it. -/
theorem copyUp_eq (hdst : dst + n ≤ 2 ^ 64) (hsrc : src + n ≤ 2 ^ 64) (hd : dst < 2 ^ 64)
    (hs : src < 2 ^ 64) (hapart : src + n ≤ dst ∨ dst ≤ src) :
    copyUp m n dst src = copyBytes m dst m src n := by
  have hloop := copyUp_copyBytes (m := m) (d := dst) (s := src) (k := 0) (n := n)
    (by omega) (by omega) (by omega)
  rwa [copyBytes_zero, Nat.add_zero, Nat.add_zero, Nat.mod_eq_of_lt hd, Nat.mod_eq_of_lt hs,
    Nat.zero_add] at hloop

/-- A backward copy is right if the destination does not lie in front of the source. -/
theorem copyDown_eq (hdst : dst + n ≤ 2 ^ 64) (hsrc : src + n ≤ 2 ^ 64) (hle : src ≤ dst) :
    copyDown m n ((dst + n) % 2 ^ 64) ((src + n) % 2 ^ 64) = copyBytes m dst m src n := by
  have hloop := copyDown_copyBytes (m := m) (k := 0) hdst hsrc hle
  rwa [copyBytes_zero, Nat.zero_add] at hloop

theorem lionMemcpy_eq (hdst : dst + n ≤ 2 ^ 64) (hsrc : src + n ≤ 2 ^ 64) (hd : dst < 2 ^ 64)
    (hs : src < 2 ^ 64) (hapart : src + n ≤ dst ∨ dst ≤ src) :
    lionMemcpy m dst src n = (copyBytes m dst m src n, dst) := by
  rw [lionMemcpy, copyUp_eq hdst hsrc hd hs hapart]

/-- The two comparisons find the direction that is right. Where the end of the source wraps, the
destination cannot lie behind its start. -/
theorem lionMemmove_eq (hdst : dst + n ≤ 2 ^ 64) (hsrc : src + n ≤ 2 ^ 64) (hd : dst < 2 ^ 64)
    (hs : src < 2 ^ 64) : lionMemmove m dst src n = (copyBytes m dst m src n, dst) := by
  rw [lionMemmove]
  split
  next hup => rw [copyUp_eq hdst hsrc hd hs (by omega)]
  next hdown => rw [copyDown_eq hdst hsrc (by omega)]

private theorem fillLoop_apply (c : UInt8) (hd : d + (k + n) ≤ 2 ^ 64) (x : Nat) :
    fillLoop m c n ((d + k) % 2 ^ 64) x = if d + k ≤ x ∧ x < d + k + n then c else m x := by
  induction n generalizing m k with
  | zero => rw [fillLoop, if_neg (by omega)]
  | succ n ih =>
    have hdst : (d + k) % 2 ^ 64 = d + k := Nat.mod_eq_of_lt (by omega)
    have hrest := ih (m := Function.update m (d + k) c) (k := k + 1) (by omega)
    rw [hdst, fillLoop]
    refine hrest.trans ?_
    rw [Function.update_apply]
    split
    · rw [if_pos (by omega)]
    next hbehind =>
      split
      · rw [if_pos (by omega)]
      · rw [if_neg (by omega)]

/-- `lion_memset` fills its range and changes nothing else. -/
theorem lionMemset_eq (hdst : dst + n ≤ 2 ^ 64) (hd : dst < 2 ^ 64) (c : Int) (x : Nat) :
    (lionMemset m dst c n).1 x =
      if dst ≤ x ∧ x < dst + n then UInt8.ofNat (c % 256).toNat else m x := by
  have hloop := fillLoop_apply (m := m) (d := dst) (k := 0) (n := n)
    (UInt8.ofNat (c % 256).toNat) (by omega) x
  rwa [Nat.add_zero, Nat.mod_eq_of_lt hd] at hloop

/-- `lion_memmove` is right however the two ranges overlap: the bytes of the source as they were
are in the destination, nothing else has changed, and the result is `dst`. Between ranges that
do not meet it is `lion_memcpy`. -/
theorem lionMemmove_correct (m : Mem) (dst src n : Nat) (hd : dst < 2 ^ 64) (hs : src < 2 ^ 64)
    (hdst : dst + n ≤ 2 ^ 64) (hsrc : src + n ≤ 2 ^ 64) :
    (∀ i < n, (lionMemmove m dst src n).1 (dst + i) = m (src + i)) ∧
      (∀ x, x < dst ∨ dst + n ≤ x → (lionMemmove m dst src n).1 x = m x) ∧
      (lionMemmove m dst src n).2 = dst ∧
      (dst + n ≤ src ∨ src + n ≤ dst → lionMemmove m dst src n = lionMemcpy m dst src n) := by
  rw [lionMemmove_eq hdst hsrc hd hs]
  refine ⟨fun i hi => copyBytes_inside hi, fun x hx => copyBytes_outside hx, rfl, fun hdis => ?_⟩
  rw [lionMemcpy_eq hdst hsrc hd hs (by omega)]

/-- A range that ends with the address space is moved by one byte. -/
theorem lionMemmove_correct_top :
    (lionMemmove UInt8.ofNat (2 ^ 64 - 4) (2 ^ 64 - 5) 4).1 (2 ^ 64 - 1) = 0xFE :=
  (lionMemmove_correct UInt8.ofNat (2 ^ 64 - 4) (2 ^ 64 - 5) 4 (by decide) (by decide) (by decide)
    (by decide)).1 3 (by decide)

end LionOS.Support
