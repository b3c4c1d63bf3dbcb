import Mathlib.Data.Nat.Basic
import Mathlib.Tactic.Common
import Mathlib.Tactic.Ring

/-!
# Byte memories with little-endian words

A memory is a total function from addresses to bytes. Words of any width are
read and written least significant byte first. The lemmas say what a write
leaves behind: the value modulo the width at its own address, and everything
outside its range as it was. Programs reason about words through these lemmas
and never about single bytes.
-/

namespace Lib

/-- A byte-addressed memory. -/
abbrev Mem := Nat → UInt8

/-- The `n`-byte little-endian number stored at `a`. -/
def readLE (m : Mem) (a : Nat) : Nat → Nat
  | 0 => 0
  | n + 1 => (m a).toNat + 256 * readLE m (a + 1) n

/-- Store the low `n` bytes of `v` at `a`, least significant byte first. -/
def writeLE (m : Mem) (a n v : Nat) : Mem :=
  fun x => if a ≤ x ∧ x < a + n then UInt8.ofNat (v / 256 ^ (x - a)) else m x

/-- A write changes no byte outside its range. -/
theorem writeLE_of_outside (m : Mem) {a n x : Nat} (v : Nat) (h : x < a ∨ a + n ≤ x) :
    writeLE m a n v x = m x := by
  have hn : ¬ (a ≤ x ∧ x < a + n) := by omega
  simp [writeLE, hn]

/-- A read depends only on the bytes of its range. -/
theorem readLE_congr {m m' : Mem} {a n : Nat}
    (h : ∀ x, a ≤ x → x < a + n → m x = m' x) : readLE m a n = readLE m' a n := by
  induction n generalizing a with
  | zero => rfl
  | succ n ih =>
    have h0 := h a le_rfl (by omega)
    have ht := ih (a := a + 1) fun x hx hn => h x (by omega) (by omega)
    simp only [readLE, h0, ht]

/-- A stored number fits its width. -/
theorem readLE_lt (m : Mem) (a n : Nat) : readLE m a n < 256 ^ n := by
  induction n generalizing a with
  | zero => simp [readLE]
  | succ n ih =>
    have hb := (m a).toNat_lt
    have ht := ih (a + 1)
    simp only [readLE, Nat.pow_succ]
    omega

/-- Reading back a write yields the value modulo the width. -/
theorem readLE_writeLE (m : Mem) (a n v : Nat) :
    readLE (writeLE m a n v) a n = v % 256 ^ n := by
  induction n generalizing m a v with
  | zero => simp [readLE, Nat.mod_one]
  | succ n ih =>
    have h0 : (writeLE m a (n + 1) v a).toNat = v % 256 := by simp [writeLE]
    have ht : readLE (writeLE m a (n + 1) v) (a + 1) n =
        readLE (writeLE m (a + 1) n (v / 256)) (a + 1) n := by
      apply readLE_congr
      intro x hx hn
      obtain ⟨k, rfl⟩ := Nat.exists_eq_add_of_le hx
      have e1 : a + 1 + k - a = k + 1 := by omega
      have e2 : a + 1 + k - (a + 1) = k := by omega
      have c1 : a ≤ a + 1 + k ∧ a + 1 + k < a + (n + 1) := by omega
      have c2 : a + 1 ≤ a + 1 + k ∧ a + 1 + k < a + 1 + n := by omega
      simp only [writeLE, c1, c2, and_self, if_true, e1, e2, Nat.pow_succ, Nat.div_div_eq_div_mul,
        Nat.mul_comm 256]
    rw [readLE, h0, ht, ih, Nat.pow_succ, Nat.mul_comm (256 ^ n) 256, Nat.mod_mul]

/-- Zero bytes hold zero. -/
theorem readLE_zero (a n : Nat) : readLE (fun _ => 0) a n = 0 := by
  induction n generalizing a with
  | zero => rfl
  | succ n ih => simp [readLE, ih]

/-- Fill `n` bytes from `a` on with zero. -/
def zeroBytes (m : Mem) (a n : Nat) : Mem := fun x => if a ≤ x ∧ x < a + n then 0 else m x

theorem readLE_zeroBytes (m : Mem) {a n x k : Nat} (h : a ≤ x) (h' : x + k ≤ a + n) :
    readLE (zeroBytes m a n) x k = 0 := by
  rw [← readLE_zero x k]
  apply readLE_congr
  intro y hy hy'
  rw [zeroBytes, if_pos (by omega)]

/-- The first bytes of a stored word are its low part. -/
theorem readLE_writeLE_low (m : Mem) (a : Nat) {n k : Nat} (v : Nat) (h : k ≤ n) :
    readLE (writeLE m a n v) a k = v % 256 ^ k := by
  rw [← readLE_writeLE m a k v]
  apply readLE_congr
  intro x hx hk
  rw [writeLE, writeLE, if_pos (by omega), if_pos (by omega)]

/-- A read is the read of its first bytes and, above them, of the rest. -/
theorem readLE_append (m : Mem) (a n k : Nat) :
    readLE m a (n + k) = readLE m a n + 256 ^ n * readLE m (a + n) k := by
  induction n generalizing a with
  | zero => simp [readLE]
  | succ n ih =>
    rw [Nat.succ_add, readLE, readLE, ih, Nat.pow_succ, Nat.add_assoc a 1 n, Nat.add_comm 1 n]
    ring

/-- A write leaves every disjoint word as it was. -/
theorem readLE_writeLE_of_apart (m : Mem) {a n b k : Nat} (v : Nat)
    (h : a + n ≤ b ∨ b + k ≤ a) : readLE (writeLE m b k v) a n = readLE m a n := by
  apply readLE_congr
  intro x hx hn
  exact writeLE_of_outside m v (by omega)

/-- The low `n` bytes of `v`, least significant byte first. -/
def leBytes : Nat → Nat → List UInt8
  | 0, _ => []
  | n + 1, v => UInt8.ofNat v :: leBytes n (v / 256)

@[simp] theorem length_leBytes (n v : Nat) : (leBytes n v).length = n := by
  induction n generalizing v with
  | zero => rfl
  | succ n ih => rw [leBytes, List.length_cons, ih]

/-- The bytes `bs` are stored from `a` on. -/
def Holds (m : Mem) : Nat → List UInt8 → Prop
  | _, [] => True
  | a, b :: bs => m a = b ∧ Holds m (a + 1) bs

instance Holds.decidable (m : Mem) : (a : Nat) → (bs : List UInt8) → Decidable (Holds m a bs)
  | _, [] => isTrue trivial
  | a, b :: bs => @instDecidableAnd (m a = b) _ _ (Holds.decidable m (a + 1) bs)

theorem holds_append {m : Mem} {a : Nat} {bs cs : List UInt8} :
    Holds m a (bs ++ cs) ↔ Holds m a bs ∧ Holds m (a + bs.length) cs := by
  induction bs generalizing a with
  | nil => simp [Holds]
  | cons b bs ih =>
    rw [List.cons_append, Holds, Holds, ih, and_assoc, List.length_cons, Nat.add_assoc,
      Nat.add_comm 1]

/-- The bytes of a number are read as the number, modulo the width. -/
theorem readLE_of_holds {m : Mem} {a n v : Nat} (h : Holds m a (leBytes n v)) :
    readLE m a n = v % 256 ^ n := by
  induction n generalizing a v with
  | zero => simp [readLE, Nat.mod_one]
  | succ n ih =>
    obtain ⟨hb, hrest⟩ := h
    have hlow : (UInt8.ofNat v).toNat = v % 256 := UInt8.toNat_ofNat'
    rw [readLE, hb, ih hrest, hlow, Nat.pow_succ, Nat.mul_comm (256 ^ n), Nat.mod_mul]

/-- The 64-bit word stored at `a`. -/
def read64 (m : Mem) (a : Nat) : Nat := readLE m a 8

/-- Store a 64-bit word at `a`. -/
def write64 (m : Mem) (a v : Nat) : Mem := writeLE m a 8 v

theorem read64_lt (m : Mem) (a : Nat) : read64 m a < 2 ^ 64 := readLE_lt m a 8

/-- A word in range is read back exactly. -/
theorem read64_write64 (m : Mem) (a : Nat) {v : Nat} (hv : v < 2 ^ 64) :
    read64 (write64 m a v) a = v := by
  rw [read64, write64, readLE_writeLE]
  exact Nat.mod_eq_of_lt hv

/-- Disjoint words do not interfere. -/
theorem read64_write64_of_apart (m : Mem) {a b : Nat} (v : Nat) (h : a + 8 ≤ b ∨ b + 8 ≤ a) :
    read64 (write64 m b v) a = read64 m a :=
  readLE_writeLE_of_apart m v h

theorem write64_of_outside (m : Mem) {a x : Nat} (v : Nat) (h : x < a ∨ a + 8 ≤ x) :
    write64 m a v x = m x :=
  writeLE_of_outside m v h

theorem read64_zero (a : Nat) : read64 (fun _ => 0) a = 0 := readLE_zero a 8

theorem read64_congr {m m' : Mem} {a : Nat} (h : ∀ x, a ≤ x → x < a + 8 → m x = m' x) :
    read64 m a = read64 m' a :=
  readLE_congr h

end Lib
