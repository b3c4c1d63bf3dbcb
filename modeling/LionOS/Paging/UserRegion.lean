import LionOS.Paging.UserAccess

/-!
# A top-level entry for ring 3

The kernel maps all user pages below one top-level entry that was free, and every table it
links there is open to ring 3. So ring 3 can reach exactly what is mapped below that entry,
however often pages are mapped there, also where a page replaces another.
-/

namespace LionOS.Paging

open Lib

/-- The entry lets ring 3 through if it is in use. -/
def OpenEntry (e : Nat) : Prop := e &&& Pte.present ≠ 0 → e &&& Pte.user ≠ 0

theorem openEntry_zero : OpenEntry 0 := fun h => absurd (Nat.zero_and _) h

namespace Machine

variable {σ : Type*} {i : Fin 512}

/-- Ring 3 can reach what is mapped below top-level entry `i`, and nothing else. -/
structure Enclosed (i : Fin 512) (s : Machine σ) : Prop where
  inside : format.Below OpenEntry (entries s.mem) 3 s.pml4 i
  outside : ∀ v, Canonical v → index4 v ≠ i → ¬ s.UserAccessible v

/-- A free top-level entry of a machine where ring 3 can reach nothing. -/
theorem Enclosed.of_free {s : Machine σ} (hfree : s.findFreeTopIndex = some i)
    (hclosed : ∀ v, Canonical v → ¬ s.UserAccessible v) : s.Enclosed i where
  inside := by
    have habs := absent_of_free hfree
    refine Format.Below.of_absent (fun h => absurd habs h) ?_
    simp only [format, decode, entries, habs, if_true]
  outside v hv _ := hclosed v hv

theorem Enclosed.userAccessible_iff {s : Machine σ} {v : Nat} (h : s.Enclosed i)
    (hv : index4 v = i) : s.UserAccessible v ↔ (s.lookup (path v)).1 &&& Pte.present ≠ 0 := by
  constructor
  · intro ha
    rw [← translate_eq]
    exact ha.present
  · intro hp
    refine Machine.userAccessible_iff.mpr fun e he => ⟨he.present hp, ?_⟩
    have hhead : (path v).head? = some i := congrArg some hv
    exact h.inside.of_meets le_rfl hhead he (he.present hp)

theorem canonical_of_loadByte {s : Machine σ} {v : Nat} {b : UInt8} (h : s.loadByte v = some b) :
    Canonical v := by
  by_contra hv
  simp [loadByte, physical, hv] at h

/-- Memory outside the tables does not matter. -/
theorem SameTables.userAccessible_iff {s : Machine σ} {m : Mem} (hm : s.SameTables m) {v : Nat} :
    (s.setMem m).UserAccessible v ↔ s.UserAccessible v := by
  have hmeets : ∀ e, (s.setMem m).Meets (path v) e ↔ s.Meets (path v) e := fun e =>
    Format.meets_congr (hm.agree.entry_eq_of_prefix le_rfl)
  simp only [Machine.userAccessible_iff, hmeets]

theorem SameTables.enclosed {s : Machine σ} {m : Mem} (hm : s.SameTables m) (h : s.Enclosed i) :
    (s.setMem m).Enclosed i where
  inside := hm.agree.below h.inside
  outside v hv hne ha := h.outside v hv hne (hm.userAccessible_iff.mp ha)

variable [FrameSource σ] {P : Nat → Prop}

/-- A level of a user walk links a table with an entry that is open. -/
private theorem descend_below {s s₁ s₂ : Machine σ} {p : List (Fin 512)} {t u : Nat} {j : Fin 512}
    (hd : Descended P s s₁ p t) (hlt : p.length < 3) (h : descend true t j s₁ = (.ok u, s₂))
    (hb : format.Below OpenEntry (entries s₁.mem) 3 s₁.pml4 i) :
    format.Below OpenEntry (entries s₂.mem) 3 s₂.pml4 i := by
  rcases descend_cases h with ⟨-, -, rfl⟩ | ⟨-, he, -⟩ | ⟨f, frames, habs, ha, -, rfl⟩
  · exact hb
  · exact absurd he (by simp)
  · obtain ⟨⟨hf, hnew, -⟩, -⟩ := hd.sound.supply.step ha
    have hg : format.Graft (entries s₁.mem) (entries (s₁.linked frames true f t j).mem) 3 s₁.pml4 p
        t j (f * 4096) := graft_of_alloc true hd.node hlt habs hf hnew
    have hlink : entries (s₁.linked frames true f t j).mem t j = linkEntry (f * 4096) true :=
      entries_tableWrite_self _ _ _ (linkEntry_lt ..)
    refine hg.below hd.sound.tree openEntry_zero ?_ hb
    rw [hlink]
    exact fun _ => linkEntry_user _

/-- A user mapping below the entry keeps ring 3 enclosed. -/
theorem Enclosed.map {s s' : Machine σ} {virt phys : Nat} {nx : Bool} (h : s.Enclosed i)
    (hs : s.Sound P) (hopen : (s.lookup (path virt)).2 = false) (hvirt : index4 virt = i)
    (hok : s.mapPageImpl virt phys true nx = (.ok (), s')) : s'.Enclosed i where
  inside := by
    unfold mapPageImpl at hok
    split at hok
    next => exact absurd hok (by simp)
    next pdpt s₁ h₄ =>
    split at hok
    next => exact absurd hok (by simp)
    next pd s₂ h₃ =>
    split at hok
    next => exact absurd hok (by simp)
    next pt s₃ h₂ =>
    have hd₀ := Descended.start hs
    have hd₁ := (hd₀.step (by simp) rfl hopen h₄).2.2.2 pdpt rfl
    have hd₂ := (hd₁.step (by simp) rfl hopen h₃).2.2.2 pd rfl
    have hd₃ := (hd₂.step (r := [index1 virt]) (by simp) rfl hopen h₂).2.2.2 pt rfl
    have hb₁ := descend_below hd₀ (by simp) h₄ h.inside
    have hb₂ := descend_below hd₁ (by simp) h₃ hb₁
    have hb₃ := descend_below hd₂ (by simp) h₂ hb₂
    obtain rfl := (Prod.mk.inj hok).2
    refine (hd₃.update rfl (index1 virt) (leafEntry phys true nx)).below_of_last hd₃.sound.tree
      rfl ?_ hb₃
    rw [entries_tableWrite_self _ _ _ (leafEntry_lt ..)]
    exact fun _ => (leafEntry_user phys true nx).mpr rfl
  outside v hv hne ha := by
    refine h.outside v hv hne ((userAccessible_elsewhere hs hopen hok fun hpath => ?_).mp ha)
    exact hne ((List.cons.inj hpath).1.trans hvirt)

end Machine

end LionOS.Paging
