import LionOS.Paging.Mapping

/-!
# Accesses through the tables

A kernel access to a virtual address goes where the processor's walk of the tables
leads, and faults when the walk ends at an entry that is not present. Every entry
the kernel writes is writable, so reads and writes are not told apart.

Memory outside the reachable tables does not matter to any walk. Storing into a
mapped data frame therefore changes no translation.
-/

namespace LionOS.Paging

open Lib

/-- Addresses of one page have the same path. -/
theorem path_eq_of_page_eq {v w : Nat} (h : v / 4096 = w / 4096) : path v = path w := by
  have hfield : ∀ k, v / (4096 * k) = w / (4096 * k) := by
    intro k
    rw [← Nat.div_div_eq_div_mul, ← Nat.div_div_eq_div_mul, h]
  simp only [path, index4, index3, index2, index1, List.cons.injEq, Fin.ext_iff, indexAt_val,
    and_true]
  have h4 := hfield (2 ^ 27)
  have h3 := hfield (2 ^ 18)
  have h2 := hfield (2 ^ 9)
  omega

/-- Replace one byte. -/
def setByte (m : Mem) (p : Nat) (b : UInt8) : Mem := fun x => if x = p then b else m x

@[simp] theorem setByte_self (m : Mem) (p : Nat) (b : UInt8) : setByte m p b p = b := if_pos rfl

theorem setByte_of_ne (m : Mem) {p x : Nat} (b : UInt8) (h : x ≠ p) : setByte m p b x = m x :=
  if_neg h

namespace Machine

variable {σ : Type*}

/-- The physical address the processor's walk of the current tables leads to. -/
def physical (s : Machine σ) (virt : Nat) : Option Nat :=
  if ¬ Canonical virt then none
  else
    let pml4e := tableRead s.mem s.pml4 (index4 virt)
    if pml4e &&& Pte.present = 0 then none
    else
      let pdpte := tableRead s.mem (pml4e &&& addrMask) (index3 virt)
      if pdpte &&& Pte.present = 0 then none
      else if pdpte &&& Pte.huge ≠ 0 then
        some ((pdpte &&& addrMask) / 2 ^ 30 * 2 ^ 30 + virt % 2 ^ 30)
      else
        let pde := tableRead s.mem (pdpte &&& addrMask) (index2 virt)
        if pde &&& Pte.present = 0 then none
        else if pde &&& Pte.huge ≠ 0 then
          some ((pde &&& addrMask) / 2 ^ 21 * 2 ^ 21 + virt % 2 ^ 21)
        else
          let pte := tableRead s.mem (pde &&& addrMask) (index1 virt)
          if pte &&& Pte.present = 0 then none
          else some ((pte &&& addrMask) + virt % 2 ^ 12)

/-- Read the byte at a virtual address. -/
def loadByte (s : Machine σ) (virt : Nat) : Option UInt8 := (s.physical virt).map s.mem

/-- Write the byte at a virtual address. -/
def storeByte (s : Machine σ) (virt : Nat) (b : UInt8) : Option (Machine σ) :=
  (s.physical virt).map fun p => s.setMem (setByte s.mem p b)

/-- Copy the first `n` bytes of `src` to virtual address `dst`. -/
def copyTo (s : Machine σ) (src : Nat → UInt8) (dst : Nat) : Nat → Option (Machine σ)
  | 0 => some s
  | n + 1 => (s.copyTo src dst n).bind fun s => s.storeByte (dst + n) (src n)

/-- Read `n` bytes at virtual address `src`. -/
def copyFrom (s : Machine σ) (src : Nat) : Nat → Option (List UInt8)
  | 0 => some []
  | n + 1 =>
    (s.copyFrom src n).bind fun bytes => (s.loadByte (src + n)).map fun b => bytes ++ [b]

/-- A walk that is not stopped by a huge entry leads to the frame of its leaf. -/
theorem physical_of_lookup {s : Machine σ} {v e : Nat} (hv : Canonical v)
    (h : s.lookup (path v) = (e, false)) :
    s.physical v =
      if e &&& Pte.present = 0 then none else some ((e &&& addrMask) + v % 4096) := by
  have hblank : (0, false) = (e, false) → (if e &&& Pte.present = 0 then none
      else some ((e &&& addrMask) + v % 4096)) = none := by
    intro he
    obtain ⟨rfl, -⟩ := Prod.mk.inj he
    rw [Nat.zero_and, if_pos rfl]
  simp only [lookup, path, Format.lookup, format, decode, entries] at h
  simp only [physical, hv, not_true_eq_false, if_false]
  by_cases h₄ : tableRead s.mem s.pml4 (index4 v) &&& Pte.present = 0
  · simp only [h₄, if_true] at h ⊢
    exact (hblank h).symm
  simp only [h₄, if_false, ne_eq, not_true_eq_false, false_and] at h ⊢
  generalize tableRead s.mem s.pml4 (index4 v) &&& addrMask = pdpt at h ⊢
  by_cases h₃ : tableRead s.mem pdpt (index3 v) &&& Pte.present = 0
  · simp only [h₃, if_true] at h ⊢
    exact (hblank h).symm
  by_cases hh₃ : tableRead s.mem pdpt (index3 v) &&& Pte.huge = 0
  · simp only [h₃, hh₃, if_false, not_true_eq_false, and_false] at h ⊢
    generalize tableRead s.mem pdpt (index3 v) &&& addrMask = pd at h ⊢
    by_cases h₂ : tableRead s.mem pd (index2 v) &&& Pte.present = 0
    · simp only [h₂, if_true] at h ⊢
      exact (hblank h).symm
    by_cases hh₂ : tableRead s.mem pd (index2 v) &&& Pte.huge = 0
    · simp only [h₂, hh₂, if_false, not_true_eq_false, and_false] at h ⊢
      obtain ⟨rfl, -⟩ := Prod.mk.inj h
      rfl
    · simp [h₂, hh₂] at h
  · simp [h₃, hh₃] at h

/-- Every leaf the kernel writes is present. -/
theorem leafEntry_present (phys : Nat) (user nx : Bool) :
    leafEntry phys user nx &&& Pte.present ≠ 0 := by
  cases user <;> cases nx <;>
    simp only [leafEntry, entryPage, if_true, Bool.false_eq_true, if_false,
      Nat.and_or_distrib_right, present_and_masked] <;> decide

/-- A leaf leads to its frame. -/
theorem leafEntry_addr {phys : Nat} (user nx : Bool) (hal : phys % 4096 = 0) (hp : phys < 2 ^ 52) :
    leafEntry phys user nx &&& addrMask = phys := by
  have hb : Pte.present &&& addrMask = 0 ∧ Pte.writable &&& addrMask = 0 ∧
      Pte.user &&& addrMask = 0 ∧ Pte.nx &&& addrMask = 0 := by decide
  cases user <;> cases nx <;>
    simp only [leafEntry, entryPage, if_true, Bool.false_eq_true, if_false,
      Nat.and_or_distrib_right, hb, Nat.or_zero,
      and_addrMask_of_aligned hal hp]

/-- A page whose walk ends at a leaf is accessed in the leaf's frame. -/
theorem physical_of_leaf {s : Machine σ} {v phys : Nat} {user nx : Bool} (hv : Canonical v)
    (hal : phys % 4096 = 0) (hp : phys < 2 ^ 52)
    (h : s.lookup (path v) = (leafEntry phys user nx, false)) :
    s.physical v = some (phys + v % 4096) := by
  rw [physical_of_lookup hv h, if_neg (leafEntry_present phys user nx),
    leafEntry_addr user nx hal hp]

/-- A page whose walk ends at a blank entry is not mapped. -/
theorem physical_of_blank {s : Machine σ} {v : Nat} (hv : Canonical v)
    (h : s.lookup (path v) = (0, false)) : s.physical v = none := by
  rw [physical_of_lookup hv h, Nat.zero_and, if_pos rfl]

/-- The memory `m` has the tables of `s`. -/
def SameTables (s : Machine σ) (m : Mem) : Prop :=
  ∀ x, s.Reachable (x / 4096 * 4096) → m x = s.mem x

section

variable {s : Machine σ} {m : Mem} (h : s.SameTables m)

include h

theorem SameTables.agree : format.Agree (entries s.mem) (entries m) 3 s.pml4 := by
  intro t i ht
  have hal : t % 4096 = 0 := Reachable.aligned (s := s) ht
  have hi := i.isLt
  apply read64_congr
  intro x hx hx'
  apply h
  have hpage : x / 4096 * 4096 = t := by omega
  rw [hpage]
  exact ht

/-- Memory outside the tables does not matter to a walk. -/
theorem SameTables.lookup_eq {q : List (Fin 512)} (hq : q.length = 4) :
    (s.setMem m).lookup q = s.lookup q :=
  h.agree.lookup_eq (by omega)

theorem SameTables.reachable {t : Nat} : (s.setMem m).Reachable t ↔ s.Reachable t :=
  h.agree.reach

theorem SameTables.sound [FrameSource σ] {P Q : Nat → Prop} (hs : s.Sound P)
    (hpq : ∀ f, P f → Q f) : (s.setMem m).Sound Q := by
  refine ⟨h.agree.tree hs.tree, hs.supply.mono ?_⟩
  rintro f ⟨hf, hr, hP⟩
  exact ⟨hf, fun hr' => hr (h.reachable.mp hr'), hpq f hP⟩

end

/-- A frame that was no table and does not satisfy `P` is still none. -/
theorem Grown.not_reachable {P : Nat → Prop} {s s' : Machine σ} {f : Nat} (h : Grown P s s')
    (hf : ¬ s.Reachable (f * 4096)) (hP : ¬ P f) : ¬ s'.Reachable (f * 4096) := by
  intro hr
  rcases h.reach _ hr with hr | ⟨g, hg, he⟩
  · exact hf hr
  · obtain rfl : f = g := by omega
    exact hP hg

/-- Frames that are no tables keep their bytes. -/
theorem Grown.mem_eq {P : Nat → Prop} {s s' : Machine σ} {f x : Nat} (h : Grown P s s')
    (hf : ¬ s'.Reachable (f * 4096)) (hx : x / 4096 = f) : s'.mem x = s.mem x := by
  apply h.outside
  rwa [hx]

/-- Storing into a frame that is no table leaves the tables as they are. -/
theorem sameTables_setByte {s : Machine σ} {p : Nat} (b : UInt8)
    (hp : ¬ s.Reachable (p / 4096 * 4096)) : s.SameTables (setByte s.mem p b) := by
  intro x hx
  apply setByte_of_ne
  rintro rfl
  exact hp hx

end Machine

end LionOS.Paging
