import LionOS.Lib.Radix
import LionOS.Paging.Tables
import Mathlib.Tactic.Cases
import Mathlib.Tactic.SplitIfs

/-!
# The page tables as a radix tree

`translate` is the lookup of the multi-level tables along the four indices of an
address. Tables are page-aligned, so writing an entry of one changes no other
entry, and a freshly zeroed frame is a blank table.
-/

namespace LionOS.Paging

open Lib

theorem indexAt_val (shift v : Nat) : (indexAt shift v : Nat) = v / 2 ^ shift % 512 :=
  shiftRight_and_field v shift 9

theorem and_addrMask (x : Nat) : x &&& addrMask = x / 4096 % 2 ^ 40 * 4096 :=
  and_field x 12 40

/-- Masked addresses are page-aligned. -/
theorem and_addrMask_mod (x : Nat) : (x &&& addrMask) % 4096 = 0 := by
  rw [and_addrMask]
  omega

/-- A page-aligned physical address survives the mask. -/
theorem and_addrMask_of_aligned {x : Nat} (h : x % 4096 = 0) (hx : x < 2 ^ 52) :
    x &&& addrMask = x := by
  rw [and_addrMask]
  omega

/-- Bits 47 to 63 of the address are equal. -/
def Canonical (v : Nat) : Prop := v < 2 ^ 47 ∨ 2 ^ 64 - 2 ^ 47 ≤ v ∧ v < 2 ^ 64

instance (v : Nat) : Decidable (Canonical v) := by
  unfold Canonical
  infer_instance

/-- The four indices of an address, from the root down. -/
def path (v : Nat) : List (Fin 512) := [index4 v, index3 v, index2 v, index1 v]

/-- Canonical addresses on the same path are on the same page. -/
theorem page_eq_of_path_eq {v w : Nat} (hv : Canonical v) (hw : Canonical w)
    (h : path v = path w) : v / 4096 = w / 4096 := by
  simp only [path, index4, index3, index2, index1, List.cons.injEq, Fin.ext_iff, indexAt_val,
    and_true] at h
  unfold Canonical at hv hw
  omega

theorem present_and_masked (x : Nat) : (x &&& addrMask) &&& Pte.present = 0 := by
  rw [Nat.and_assoc]
  exact Nat.and_zero x

theorem huge_and_masked (x : Nat) : (x &&& addrMask) &&& Pte.huge = 0 := by
  rw [Nat.and_assoc]
  exact Nat.and_zero x

theorem mask_and_masked (x : Nat) : (x &&& addrMask) &&& addrMask = x &&& addrMask := by
  rw [Nat.and_assoc, Nat.and_self]

/-- What one entry of an inner table means to the walk: a huge entry stops it, except
at the top level where the bit is not looked at. -/
def decode (d e : Nat) : Hop Nat :=
  if e &&& Pte.present = 0 then .absent
  else if d ≠ 0 ∧ e &&& Pte.huge ≠ 0 then .stop
  else .down (e &&& addrMask)

/-- The format of the page tables. -/
def format : Format Nat Nat where
  decode := decode
  blank := 0
  decode_blank d := by simp [decode]

/-- The entry `descend` links a new table with. -/
def linkEntry (t : Nat) (user : Bool) : Nat :=
  entryPointer t true true ||| (if user then Pte.user else 0)

theorem decode_linkEntry {t : Nat} (d : Nat) (user : Bool) (h : t % 4096 = 0) (ht : t < 2 ^ 52) :
    decode d (linkEntry t user) = .down t := by
  have hp : linkEntry t user &&& Pte.present ≠ 0 := by
    simp only [linkEntry, entryPointer, if_true, Nat.and_or_distrib_right, present_and_masked]
    cases user <;> decide
  have hh : linkEntry t user &&& Pte.huge = 0 := by
    simp only [linkEntry, entryPointer, if_true, Nat.and_or_distrib_right, huge_and_masked]
    cases user <;> decide
  have hm : linkEntry t user &&& addrMask = t := by
    have hb : Pte.present &&& addrMask = 0 ∧ Pte.writable &&& addrMask = 0 ∧
        (if user then Pte.user else 0) &&& addrMask = 0 := by
      cases user <;> decide
    simp only [linkEntry, entryPointer, if_true, Nat.and_or_distrib_right, mask_and_masked, hb,
      Nat.or_zero]
    exact and_addrMask_of_aligned h ht
  simp [decode, hp, hh, hm]

theorem linkEntry_lt (t : Nat) (user : Bool) : linkEntry t user < 2 ^ 64 := by
  have hm : t &&& addrMask < 2 ^ 64 := by
    rw [and_addrMask]
    omega
  have hu : (if user then Pte.user else 0) < 2 ^ 64 := by cases user <;> decide
  simp only [linkEntry, entryPointer, if_true]
  exact Nat.or_lt_two_pow (Nat.or_lt_two_pow (Nat.or_lt_two_pow hm (by decide)) (by decide)) hu

/-- All entries of all tables. -/
def entries (m : Mem) (t : Nat) (i : Fin 512) : Nat := tableRead m t i

theorem entries_tableWrite_self (m : Mem) (t : Nat) (i : Fin 512) {e : Nat} (he : e < 2 ^ 64) :
    entries (tableWrite m t i e) t i = e :=
  read64_write64 m _ he

/-- Writing an entry changes no other entry of any table. -/
theorem entries_tableWrite_of_ne (m : Mem) {t u : Nat} {i j : Fin 512} (e : Nat)
    (ht : t % 4096 = 0) (hu : u % 4096 = 0) (hne : ¬ (u = t ∧ j = i)) :
    entries (tableWrite m t i e) u j = entries m u j := by
  have hi := i.isLt
  have hj := j.isLt
  apply read64_write64_of_apart
  rcases Nat.lt_trichotomy u t with h | rfl | h
  · left; omega
  · have hv : (j : Nat) ≠ i := fun h => hne ⟨rfl, Fin.ext h⟩
    omega
  · right; omega

private theorem zeroEntries_apply (m : Mem) (phys n x : Nat) :
    zeroEntries m phys n x = if phys ≤ x ∧ x < phys + 8 * n then 0 else m x := by
  induction n with
  | zero =>
    rw [if_neg (by omega)]
    rfl
  | succ n ih =>
    rw [zeroEntries]
    by_cases h : phys + 8 * n ≤ x ∧ x < phys + 8 * n + 8
    · rw [write64, writeLE, if_pos h, if_pos (by omega), Nat.zero_div]
      rfl
    · rw [write64_of_outside _ _ (by omega), ih]
      by_cases hx : phys ≤ x ∧ x < phys + 8 * n
      · rw [if_pos hx, if_pos (by omega)]
      · rw [if_neg hx, if_neg (by omega)]

/-- The bytes of a zeroed table are zero and no other byte changes. -/
theorem zeroTable_apply (m : Mem) (phys x : Nat) :
    zeroTable m phys x = if phys ≤ x ∧ x < phys + 4096 then 0 else m x :=
  zeroEntries_apply m phys 512 x

/-- A zeroed frame is a blank table. -/
theorem entries_zeroTable_self (m : Mem) (t : Nat) (i : Fin 512) :
    entries (zeroTable m t) t i = 0 := by
  have hi := i.isLt
  have hz : read64 (zeroTable m t) (t + 8 * i) = read64 (fun _ => 0) (t + 8 * i) := by
    apply read64_congr
    intro x hx hx'
    rw [zeroTable_apply, if_pos (by omega)]
  exact hz.trans (read64_zero _)

/-- Zeroing a frame changes no entry of another table. -/
theorem entries_zeroTable_of_ne (m : Mem) {t u : Nat} (j : Fin 512) (ht : t % 4096 = 0)
    (hu : u % 4096 = 0) (hne : u ≠ t) : entries (zeroTable m t) u j = entries m u j := by
  have hj := j.isLt
  apply read64_congr
  intro x hx hx'
  rw [zeroTable_apply, if_neg (by omega)]

namespace Machine

variable {σ : Type*}

/-- `translate` is the lookup along the four indices. -/
theorem translate_eq_lookup (s : Machine σ) (v : Nat) :
    s.translate v = (format.lookup (entries s.mem) 0 s.pml4 (path v)).1 := by
  simp only [translate, path, Format.lookup, format, decode, entries]
  split_ifs <;> simp_all

/-- A table reachable from the root. -/
def Reachable (s : Machine σ) (t : Nat) : Prop := format.Reach (entries s.mem) 3 s.pml4 t

/-- The reachable tables form a tree. -/
def Tree (s : Machine σ) : Prop := format.Tree (entries s.mem) 3 s.pml4

/-- Reachable tables are page-aligned. -/
theorem Reachable.aligned {s : Machine σ} {t : Nat} (h : s.Reachable t) : t % 4096 = 0 := by
  obtain ⟨p, -, hn⟩ := h
  rcases List.eq_nil_or_concat p with rfl | ⟨p, i, rfl⟩
  · obtain rfl := Option.some.inj hn
    exact and_addrMask_mod _
  · rw [List.concat_eq_append, Format.node_concat] at hn
    obtain ⟨u, -, hc⟩ := Option.bind_eq_some_iff.mp hn
    simp only [Format.child, format, decode] at hc
    split at hc
    next w hd =>
      obtain rfl := Option.some.inj hc
      split_ifs at hd
      obtain rfl := Hop.down.inj hd
      exact and_addrMask_mod _
    next => exact absurd hc (by simp)

end Machine

end LionOS.Paging
