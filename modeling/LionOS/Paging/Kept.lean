import LionOS.Paging.Access

/-!
# Walks below another top-level entry

Mapping a page writes entries of the tables below the page's own top-level entry, and that
entry itself. The processor's walks below every other top-level entry run through the same
entries as before, also where they end at a huge page.
-/

namespace LionOS.Paging

open Lib

namespace Machine

variable {σ : Type*} {s s₁ s₂ : Machine σ} {q : List (Fin 512)} {v : Nat}

/-- The walk along `q` runs through the same entries in both machines. -/
structure Keeps (s s' : Machine σ) (q : List (Fin 512)) : Prop where
  root : s'.pml4 = s.pml4
  reads : ∀ (r : List (Fin 512)) (j : Fin 512) (u : Nat), r ++ [j] <+: q →
    format.node (entries s.mem) 0 s.pml4 r = some u → tableRead s'.mem u j = tableRead s.mem u j

theorem Keeps.refl (s : Machine σ) (q : List (Fin 512)) : Keeps s s q :=
  ⟨rfl, fun _ _ _ _ _ => rfl⟩

theorem Keeps.node_eq (h : Keeps s s₁ q) {r : List (Fin 512)} {j : Fin 512} (hr : r ++ [j] <+: q) :
    format.node (entries s₁.mem) 0 s₁.pml4 r =
      format.node (entries s.mem) 0 s.pml4 r := by
  rw [h.root]
  apply Format.node_congr
  intro p k u hp hn
  exact h.reads p k u (hp.trans ((List.prefix_append r [j]).trans hr)) hn

theorem Keeps.trans (h : Keeps s s₁ q) (h' : Keeps s₁ s₂ q) : Keeps s s₂ q where
  root := h'.root.trans h.root
  reads r j u hr hn := by
    rw [h'.reads r j u hr ((h.node_eq hr).trans hn), h.reads r j u hr hn]

/-- The walk goes down through an entry that is present and, below the root, not huge. -/
private theorem node_down {r : List (Fin 512)} {t : Nat} {i : Fin 512}
    (hn : format.node (entries s.mem) 0 s.pml4 r = some t)
    (hp : tableRead s.mem t i &&& Pte.present ≠ 0)
    (hh : r.length ≠ 0 → tableRead s.mem t i &&& Pte.huge = 0) :
    format.node (entries s.mem) 0 s.pml4 (r ++ [i]) =
      some (tableRead s.mem t i &&& addrMask) := by
  rw [Format.node_concat, hn, Option.bind_some, Nat.zero_add]
  apply Format.child_of_down
  have hstop : ¬ (r.length ≠ 0 ∧ tableRead s.mem t i &&& Pte.huge ≠ 0) :=
    fun hbad => hbad.2 (hh hbad.1)
  simp only [format, decode, entries, if_neg hp, if_neg hstop]

/-- The walk leads to the same address. -/
theorem Keeps.physical_eq (h : Keeps s s₁ (path v)) : s₁.physical v = s.physical v := by
  have h₄ := h.reads [] (index4 v) s.pml4 ⟨[index3 v, index2 v, index1 v], rfl⟩ rfl
  simp only [physical, h.root, h₄]
  by_cases hp₄ : tableRead s.mem s.pml4 (index4 v) &&& Pte.present = 0
  · simp only [hp₄, if_true]
  have hn₃ := node_down (s := s) (r := []) rfl hp₄ fun h0 => absurd rfl h0
  rw [h.reads _ (index3 v) _ ⟨[index2 v, index1 v], rfl⟩ hn₃]
  generalize tableRead s.mem s.pml4 (index4 v) &&& addrMask = pdpt at hn₃ ⊢
  by_cases hp₃ : tableRead s.mem pdpt (index3 v) &&& Pte.present = 0
  · simp only [hp₃, if_true]
  by_cases hh₃ : tableRead s.mem pdpt (index3 v) &&& Pte.huge = 0
  · have hn₂ := node_down hn₃ hp₃ fun _ => hh₃
    rw [h.reads _ (index2 v) _ ⟨[index1 v], rfl⟩ hn₂]
    generalize tableRead s.mem pdpt (index3 v) &&& addrMask = pd at hn₂ ⊢
    by_cases hp₂ : tableRead s.mem pd (index2 v) &&& Pte.present = 0
    · simp only [hp₂, if_true]
    by_cases hh₂ : tableRead s.mem pd (index2 v) &&& Pte.huge = 0
    · have hn₁ := node_down hn₂ hp₂ fun _ => hh₂
      rw [h.reads _ (index1 v) _ ⟨[], rfl⟩ hn₁]
    · simp only [ne_eq, hh₂, not_false_eq_true, if_true]
  · simp only [ne_eq, hh₃, not_false_eq_true, if_true]

/-- Memory outside the tables does not matter. -/
theorem SameTables.keeps {m : Mem} (h : s.SameTables m) (hq : q.length ≤ 4) :
    Keeps s (s.setMem m) q where
  root := rfl
  reads := h.agree.entry_eq_of_prefix hq

variable [FrameSource σ] {P : Nat → Prop}

/-- A level of a walk that leaves `q` changes no entry on `q`. -/
private theorem descend_keeps {user : Bool} {p : List (Fin 512)} {t : Nat} {j : Fin 512}
    {r : Except MapError Nat} (hd : Descended P s s₁ p t) (hlt : p.length < 3)
    (h : descend user t j s₁ = (r, s₂)) (hq : q.length ≤ 4) (hne : ¬ p ++ [j] <+: q) :
    Keeps s₁ s₂ q := by
  rcases descend_cases h with ⟨-, -, rfl⟩ | ⟨-, -, rfl⟩ | ⟨f, frames, habs, ha, -, rfl⟩
  · exact .refl s₂ q
  · exact .refl s₂ q
  · obtain ⟨⟨hf, hnew, -⟩, -⟩ := hd.sound.supply.step ha
    have hg : format.Graft (entries s₁.mem)
        (entries (s₁.linked frames user f t j).mem) 3 s₁.pml4 p t j (f * 4096) :=
      graft_of_alloc user hd.node hlt habs hf hnew
    exact ⟨rfl, hg.entry_eq_of_prefix hd.sound.tree hq hne⟩

/-- A mapping leaves the walks below other top-level entries alone. -/
theorem mapPageImpl_keeps {s s' : Machine σ} {virt phys : Nat} {user nx : Bool} (hs : s.Sound P)
    (hopen : (s.lookup (path virt)).2 = false)
    (hok : s.mapPageImpl virt phys user nx = (.ok (), s')) (hv : index4 v ≠ index4 virt) :
    Keeps s s' (path v) := by
  have hoff : ∀ r : List (Fin 512), ¬ index4 virt :: r <+: path v := by
    intro r hr
    exact hv (List.cons_prefix_cons.mp hr).1.symm
  unfold mapPageImpl at hok
  split at hok
  next => exact absurd hok (by simp)
  next pdpt s₁ h₄ =>
  split at hok
  next => exact absurd hok (by simp)
  next pd s₂ h₃ =>
  split at hok
  next => exact absurd hok (by simp)
  next pt s₃ h₂ =>
  have hd₀ := Descended.start hs
  have hd₁ := (hd₀.step (by simp) rfl hopen h₄).2.2.2 pdpt rfl
  have hd₂ := (hd₁.step (by simp) rfl hopen h₃).2.2.2 pd rfl
  have hd₃ := (hd₂.step (r := [index1 virt]) (by simp) rfl hopen h₂).2.2.2 pt rfl
  have hk₁ := descend_keeps hd₀ (by simp) h₄ (q := path v) le_rfl (hoff [])
  have hk₂ := descend_keeps hd₁ (by simp) h₃ (q := path v) le_rfl (hoff [index3 virt])
  have hk₃ := descend_keeps hd₂ (by simp) h₂ (q := path v) le_rfl (hoff [index3 virt, index2 virt])
  obtain rfl := (Prod.mk.inj hok).2
  have hu := hd₃.update rfl (index1 virt) (leafEntry phys user nx)
  have hk₄ : Keeps s₃ (s₃.setMem (tableWrite s₃.mem pt (index1 virt) (leafEntry phys user nx)))
      (path v) :=
    ⟨rfl, hu.entry_eq_of_prefix hd₃.sound.tree le_rfl
      (hoff [index3 virt, index2 virt, index1 virt])⟩
  exact ((hk₁.trans hk₂).trans hk₃).trans hk₄

end Machine

end LionOS.Paging
