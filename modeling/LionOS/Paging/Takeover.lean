import LionOS.Paging.Fresh

/-!
# Taking over the page tables

`takeover` copies the bootloader's top-level table into a new frame and makes that the
root. The tables below are shared, so a walk differs in its first step only, and there the
copied entry leads to the same table. No condition on the shape of the bootloader's tables
is needed: they may share subtables or lead back to the root.
-/

namespace LionOS.Paging

open Lib Frames

/-- Copy the first `n` entries of the table at `old` to the table at `new`, in order. -/
def copyEntries (m : Mem) (old new : Nat) : Nat → Mem
  | 0 => m
  | n + 1 =>
    let m := copyEntries m old new n
    write64 m (new + 8 * n) (read64 m (old + 8 * n))

namespace Machine

variable {σ : Type*}

/-- Build the kernel's own top-level table and load it into CR3. -/
def takeover [FrameSource σ] (s : Machine σ) : Except MapError Nat × Machine σ :=
  match s.allocateFrame with
  | none => (.error .outOfFrames, s)
  | some (frame, s) =>
    let newCr3 := frame * 4096
    let oldCr3 := s.pml4
    let s := s.setMem (copyEntries s.mem oldCr3 newCr3 512)
    (.ok newCr3, { s with cr3 := newCr3 })

end Machine

/-- One turn of the loop copies one entry. -/
theorem copyEntries_succ (m : Mem) (old new : Nat) {n : Nat} (hn : n < 512) :
    copyEntries m old new (n + 1) =
      tableWrite (copyEntries m old new n) new ⟨n, hn⟩
        (entries (copyEntries m old new n) old ⟨n, hn⟩) := rfl

/-- Copying changes no entry of another table. -/
theorem entries_copyEntries_of_ne (m : Mem) {old new u n : Nat} (hnew : new % 4096 = 0)
    (hu : u % 4096 = 0) (hne : u ≠ new) (hn : n ≤ 512) (j : Fin 512) :
    entries (copyEntries m old new n) u j = entries m u j := by
  induction n with
  | zero => rfl
  | succ n ih =>
    rw [copyEntries_succ m old new hn, ← ih (by omega)]
    exact entries_tableWrite_of_ne _ _ hnew hu fun hc => hne hc.1

/-- The entries copied so far are those of the other table. -/
theorem entries_copyEntries_self (m : Mem) {old new n : Nat} (hold : old % 4096 = 0)
    (hnew : new % 4096 = 0) (hne : old ≠ new) (hn : n ≤ 512) {j : Fin 512} (hj : j.val < n) :
    entries (copyEntries m old new n) new j = entries m old j := by
  induction n with
  | zero => omega
  | succ n ih =>
    rw [copyEntries_succ m old new hn]
    by_cases hjn : j.val = n
    · obtain rfl : j = ⟨n, hn⟩ := Fin.ext hjn
      have hread : entries (copyEntries m old new n) old ⟨n, hn⟩ < 2 ^ 64 := read64_lt ..
      rw [entries_tableWrite_self _ _ _ hread,
        entries_copyEntries_of_ne m hnew hold hne (by omega)]
    · rw [← ih (by omega) (by omega)]
      exact entries_tableWrite_of_ne _ _ hnew hnew fun hc => hjn (congrArg Fin.val hc.2)

namespace Machine

variable {σ : Type*}

/-- A root with the entries of the old one, over the same tables, translates every address
as before. -/
theorem translate_of_copy {s s' : Machine σ}
    (hroot : ∀ i, entries s'.mem s'.pml4 i = entries s.mem s.pml4 i)
    (hsame : ∀ u j, s.Reachable u → entries s'.mem u j = entries s.mem u j) (v : Nat) :
    s'.translate v = s.translate v := by
  rw [translate_eq_lookup, translate_eq_lookup]
  simp only [path, Format.lookup, hroot]
  cases hd : format.decode 0 (entries s.mem s.pml4 (index4 v)) with
  | absent => rfl
  | stop => rfl
  | down u =>
    have hnode : format.node (entries s.mem) 0 s.pml4 [index4 v] = some u := by
      simp only [Format.node, Format.child_of_down hd, Option.bind_some]
    have hrest : format.lookup (entries s'.mem) 1 u [index3 v, index2 v, index1 v] =
        format.lookup (entries s.mem) 1 u [index3 v, index2 v, index1 v] := by
      apply Format.lookup_congr_of_node hnode
      intro p j w hp hn
      have hle := hp.length_le
      simp only [List.length_append, List.length_cons, List.length_nil] at hle
      exact hsame w j ⟨p, by omega, hn⟩
    exact congrArg Prod.fst hrest

variable [FrameSource σ]

/-- What a takeover that returns `Ok` has done. -/
theorem takeover_ok {s s' : Machine σ} {cr3 : Nat} (h : s.takeover = (.ok cr3, s')) :
    ∃ f frames, FrameSource.allocateFrame s.frames = some (f, frames) ∧ cr3 = f * 4096 ∧
      s'.cr3 = f * 4096 ∧ s'.frames = frames ∧
      s'.mem = copyEntries s.mem s.pml4 (f * 4096) 512 := by
  unfold takeover at h
  cases hf : s.allocateFrame with
  | none => simp [hf] at h
  | some ft =>
    obtain ⟨f, t⟩ := ft
    simp only [hf, Prod.mk.injEq] at h
    obtain ⟨hcr3, rfl⟩ := h
    obtain ⟨frames, ha, rfl⟩ := allocateFrame_eq_some hf
    exact ⟨f, frames, ha, (Except.ok.inj hcr3).symm, rfl, rfl, rfl⟩

/-- Only for want of a frame the tables are not taken over. -/
theorem takeover_error {s s' : Machine σ} {e : MapError} (h : s.takeover = (.error e, s')) :
    FrameSource.allocateFrame s.frames = none ∧ s' = s := by
  unfold takeover allocateFrame at h
  split at h
  next hnone =>
    split at hnone
    next hdry => exact ⟨hdry, (Prod.mk.inj h).2.symm⟩
    next => cases hnone
  next => exact absurd (Prod.mk.inj h).1 (by simp)

/-- What may happen after a takeover: memory is written, frames are taken, and pages are
mapped, with any result. -/
inductive Later (s : Machine σ) : Machine σ → Prop
  | refl : Later s s
  | store {t : Machine σ} (h : Later s t) (m : Mem) : Later s (t.setMem m)
  | take {t t' : Machine σ} {f : Nat} (h : Later s t) (ha : t.allocateFrame = some (f, t')) :
      Later s t'
  | map {t t' : Machine σ} {virt phys : Nat} {user nx : Bool} {r : Except MapError Unit}
      (h : Later s t) (hm : t.mapPageImpl virt phys user nx = (r, t')) : Later s t'

/-- The root stays, and the frames to come are among those that were to come. -/
theorem Later.cr3_and_supplies {s t : Machine σ} {P : Nat → Prop} (h : Later s t)
    (hs : Supplies s.frames P) : t.cr3 = s.cr3 ∧ Supplies t.frames P := by
  induction h with
  | refl => exact ⟨rfl, hs⟩
  | store h m ih => exact ih
  | @take t t' f h ha ih =>
    obtain ⟨frames, hf, rfl⟩ := allocateFrame_eq_some ha
    exact ⟨ih.1, (ih.2.step hf).2.mono fun g hg => hg.1⟩
  | map h hm ih =>
    obtain ⟨hcr3, fs, htakes⟩ := mapPageImpl_takes hm
    exact ⟨hcr3.trans ih.1, htakes.supplies ih.2⟩

/-- **Takeover preserves the address space.** For every memory and CR3, with an allocator
that hands out different frames of the 52-bit physical memory, none of them a table reachable
from CR3: after a takeover that returns `Ok`, every address translates as before. And
whatever happens later, a page mapped where the root has no entry leaves the entries of the
old root as they are. -/
theorem takeover_preserves {s s' : Machine σ} {cr3 : Nat}
    (hsupply : Supplies s.frames fun f => f < 2 ^ 40 ∧ ¬ s.Reachable (f * 4096))
    (h : s.takeover = (.ok cr3, s')) :
    s'.pml4 = cr3 ∧ (∀ v, s'.translate v = s.translate v) ∧
      ∀ t t' virt phys, Later s' t →
        tableRead t.mem t.pml4 (index4 virt) &&& Pte.present = 0 →
        t.mapPage virt phys = (.ok (), t') →
        ∀ j, tableRead t'.mem s.pml4 j = tableRead t.mem s.pml4 j := by
  obtain ⟨f, frames, ha, rfl, hcr3, rfl, hmem⟩ := takeover_ok h
  obtain ⟨⟨hf, hnew⟩, hsup⟩ := hsupply.step ha
  have hold : s.Reachable s.pml4 := ⟨[], by simp, rfl⟩
  have hne : s.pml4 ≠ f * 4096 := fun hc => hnew (hc ▸ hold)
  have hroot : s'.pml4 = f * 4096 := by
    rw [pml4, hcr3]
    exact and_addrMask_of_aligned (by omega) (by omega)
  refine ⟨hroot, ?_, ?_⟩
  · apply translate_of_copy
    · intro i
      rw [hmem, hroot]
      exact entries_copyEntries_self _ hold.aligned (by omega) hne le_rfl i.isLt
    · intro u j hu
      rw [hmem]
      apply entries_copyEntries_of_ne _ (by omega) hu.aligned _ le_rfl
      rintro rfl
      exact hnew hu
  · intro t t' virt phys hlater habs hmap j
    obtain ⟨htcr3, htsup⟩ := hlater.cr3_and_supplies hsup
    have htroot : t.pml4 = f * 4096 := by rw [pml4, htcr3, ← pml4, hroot]
    have htsup' : Supplies t.frames
        fun g => (g < 2 ^ 40 ∧ ¬ s.Reachable (g * 4096)) ∧ g * 4096 ≠ t.pml4 := by
      apply htsup.mono
      rintro g ⟨hg, hgf⟩
      refine ⟨hg, fun hc => hgf ?_⟩
      exact Nat.mul_right_cancel (by decide) (hc.trans htroot)
    apply mapPageImpl_of_absent habs htsup' hmap hold.aligned (htroot ▸ hne)
    rintro g ⟨-, hg⟩ hc
    exact hg (hc ▸ hold)

end Machine

/-- The root of a blank machine is replaced by a copy in frame 2, and a page mapped under the
new root leaves the old one alone. -/
theorem takeover_preserves_blank :
    ∃ s', blankMachine.takeover = (.ok 0x2000, s') ∧ s'.translate 0x400000 = 0 ∧
      ∀ t', s'.mapPage 0x400000 0x8000 = (.ok (), t') →
        ∀ j, tableRead t'.mem 0x1000 j = tableRead s'.mem 0x1000 j := by
  have hok : blankMachine.takeover.1 = .ok 0x2000 := by decide
  have hrun := Prod.fst_eq_iff.mp hok
  obtain ⟨hroot, hsame, hlater⟩ := Machine.takeover_preserves blankMachine_supplies hrun
  have hzero : ∀ v, blankMachine.takeover.2.translate v = 0 :=
    fun v => (hsame v).trans (translate_blankMachine v)
  refine ⟨_, hrun, hzero _, fun t' hmap => ?_⟩
  apply hlater _ t' _ _ .refl _ hmap
  rw [hroot]
  decide +kernel

end LionOS.Paging
