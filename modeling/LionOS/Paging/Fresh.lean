import LionOS.Paging.Mapping

/-!
# Fresh tables

A walk that meets an entry that is not present links a blank frame there, and from then on
meets blank tables only: it links one frame below the other and writes nothing else, up to
the table it was to reach or to the point where no frame is left.
-/

namespace LionOS.Paging

open Lib Frames

/-- The allocator hands out `fs`, in order, from the first state to the second. -/
def Takes {σ : Type*} [FrameSource σ] : List Nat → σ → σ → Prop
  | [], a, b => a = b
  | f :: fs, a, b => ∃ c, FrameSource.allocateFrame a = some (f, c) ∧ Takes fs c b

/-- Frames taken are frames supplied. -/
theorem Takes.of_supplies {σ : Type*} [FrameSource σ] {fs : List Nat} {a b : σ} {P : Nat → Prop}
    (h : Takes fs a b) (hs : Supplies a P) : ∀ f ∈ fs, P f := by
  induction fs generalizing a P with
  | nil => simp
  | cons f fs ih =>
    obtain ⟨c, ha, hrest⟩ := h
    obtain ⟨hf, hs⟩ := hs.step ha
    exact List.forall_mem_cons.mpr ⟨hf, fun g hg => (ih hrest hs g hg).1⟩

/-- What is left after taking some of the frames is still supplied. -/
theorem Takes.supplies {σ : Type*} [FrameSource σ] {fs : List Nat} {a b : σ} {P : Nat → Prop}
    (h : Takes fs a b) (hs : Supplies a P) : Supplies b P := by
  induction fs generalizing a with
  | nil => exact (show a = b from h) ▸ hs
  | cons f fs ih =>
    obtain ⟨c, ha, hrest⟩ := h
    exact ih hrest ((hs.step ha).2.mono fun g hg => hg.1)

/-- Table `f` links the first of the frames `fs` along the first index, which links the next
along the next index, and so on; all other entries of these tables are zero. -/
def FreshChain (user : Bool) (m : Mem) : Nat → List (Fin 512) → List Nat → Prop
  | f, _, [] => ∀ j, tableRead m (f * 4096) j = 0
  | f, i :: q, g :: fs =>
    (∀ j, tableRead m (f * 4096) j = if j = i then linkEntry (g * 4096) user else 0) ∧
      FreshChain user m g q fs
  | _, [], _ :: _ => False

namespace Machine

variable {σ : Type*}

variable [FrameSource σ]

/-- The walk down a list of indices. -/
def descendAll (user : Bool) : List (Fin 512) → Nat → Machine σ → Except MapError Nat × Machine σ
  | [], t, s => (.ok t, s)
  | i :: q, t, s =>
    match descend user t i s with
    | (.error e, s) => (.error e, s)
    | (.ok u, s) => descendAll user q u s

/-- A call walks down three indices and writes the leaf. -/
theorem mapPageImpl_eq (s : Machine σ) (virt phys : Nat) (user nx : Bool) :
    s.mapPageImpl virt phys user nx =
      match descendAll user [index4 virt, index3 virt, index2 virt] s.pml4 s with
      | (.error e, s) => (.error e, s)
      | (.ok pt, s) =>
        (.ok (), s.setMem (tableWrite s.mem pt (index1 virt) (leafEntry phys user nx))) := by
  simp only [mapPageImpl, descendAll]
  rcases descend user s.pml4 (index4 virt) s with ⟨e | pdpt, s₁⟩
  · rfl
  dsimp only
  rcases descend user pdpt (index3 virt) s₁ with ⟨e | pd, s₂⟩
  · rfl
  dsimp only
  rcases descend user pd (index2 virt) s₂ with ⟨e | pt, s₃⟩
  · rfl
  · rfl

omit [FrameSource σ] in
/-- Linking a frame changes the new table and one entry. -/
theorem tableRead_linked (s : Machine σ) (frames : σ) (user : Bool) {f t u : Nat} {i j : Fin 512}
    (ht : t % 4096 = 0) (hu : u % 4096 = 0) (hf : u ≠ f * 4096) (hne : ¬ (u = t ∧ j = i)) :
    tableRead (s.linked frames user f t i).mem u j = tableRead s.mem u j :=
  (entries_tableWrite_of_ne _ _ ht hu hne).trans
    (entries_zeroTable_of_ne _ _ (by omega) hu hf)

omit [FrameSource σ] in
/-- The new table is blank. -/
theorem tableRead_linked_self (s : Machine σ) (frames : σ) (user : Bool) {f t : Nat} {i : Fin 512}
    (ht : t % 4096 = 0) (hf : f * 4096 ≠ t) (j : Fin 512) :
    tableRead (s.linked frames user f t i).mem (f * 4096) j = 0 :=
  (entries_tableWrite_of_ne _ _ ht (by omega) fun hc => hf hc.1).trans
    (entries_zeroTable_self ..)

/-- What the walk does from a blank table: it links one frame below the other and writes
nothing else, until it has come to the end or no frame is left. -/
structure Hung (user : Bool) (s s' : Machine σ) (f : Nat) (q : List (Fin 512)) (fs : List Nat)
    (r : Except MapError Nat) : Prop where
  cr3 : s'.cr3 = s.cr3
  takes : Takes fs s.frames s'.frames
  chain : FreshChain user s'.mem f q fs
  same : ∀ u j, u % 4096 = 0 → u ≠ f * 4096 → (∀ g ∈ fs, u ≠ g * 4096) →
    tableRead s'.mem u j = tableRead s.mem u j
  dry : ∀ e, r = .error e → FrameSource.allocateFrame s'.frames = none
  last : ∀ u, r = .ok u → ∃ g ∈ f :: fs, u = g * 4096

theorem descendAll_of_blank {user : Bool} {q : List (Fin 512)} {f : Nat} {P : Nat → Prop}
    {s s' : Machine σ} {r : Except MapError Nat} (hblank : ∀ j, tableRead s.mem (f * 4096) j = 0)
    (hsupply : Supplies s.frames fun g => P g ∧ g ≠ f)
    (h : descendAll user q (f * 4096) s = (r, s')) :
    ∃ fs, Hung user s s' f q fs r ∧ ∀ g ∈ fs, P g := by
  induction q generalizing f P s with
  | nil =>
    obtain ⟨rfl, rfl⟩ := Prod.mk.inj h
    refine ⟨[], ⟨rfl, rfl, hblank, fun _ _ _ _ _ => rfl, ?_, ?_⟩, by simp⟩
    · intro e he
      exact absurd he (by simp)
    · intro u hu
      exact ⟨f, List.mem_cons_self, (Except.ok.inj hu).symm⟩
  | cons i q ih =>
    rw [descendAll] at h
    cases hd : descend user (f * 4096) i s with
    | mk res s₁ =>
    simp only [hd] at h
    rcases descend_cases hd with ⟨hpres, -, -⟩ | ⟨hnone, rfl, rfl⟩ | ⟨g, frames, -, ha, rfl, rfl⟩
    · exact absurd (by rw [hblank, Nat.zero_and]) hpres
    · obtain ⟨rfl, rfl⟩ := Prod.mk.inj h
      refine ⟨[], ⟨rfl, rfl, hblank, fun _ _ _ _ _ => rfl, fun _ _ => hnone, ?_⟩, by simp⟩
      intro u hu
      exact absurd hu (by simp)
    · obtain ⟨⟨hPg, hgf⟩, hsup⟩ := hsupply.step ha
      have hfg : f * 4096 ≠ g * 4096 := by omega
      have hnew := @tableRead_linked_self _ s frames user g (f * 4096) i (by omega) hfg.symm
      obtain ⟨fs, hung, hP⟩ := ih hnew hsup h
      have hnotin : ∀ k ∈ fs, f * 4096 ≠ k * 4096 := by
        intro k hk hc
        exact (hP k hk).2 (Nat.mul_right_cancel (by decide) hc).symm
      refine ⟨g :: fs, ⟨hung.cr3, ⟨frames, ha, hung.takes⟩, ⟨fun j => ?_, hung.chain⟩, ?_,
        hung.dry, ?_⟩, ?_⟩
      · -- the walk goes on below the new table and leaves this one alone
        rw [hung.same _ j (by omega) hfg hnotin]
        split_ifs with hj
        · rw [hj]
          exact entries_tableWrite_self _ _ _ (linkEntry_lt ..)
        · rw [tableRead_linked s frames user (by omega) (by omega) hfg fun hc => hj hc.2, hblank]
      · intro u j hu huf hug
        obtain ⟨hug, hufs⟩ := List.forall_mem_cons.mp hug
        rw [hung.same u j hu hug hufs,
          tableRead_linked s frames user (by omega) hu hug fun hc => huf hc.1]
      · intro u hu
        obtain ⟨k, hk, rfl⟩ := hung.last u hu
        exact ⟨k, List.mem_cons_of_mem _ hk, rfl⟩
      · exact List.forall_mem_cons.mpr ⟨hPg, fun k hk => (hP k hk).1⟩

/-- Mapping a page whose root entry is not present writes to the root and to frames the
allocator hands out. -/
theorem mapPageImpl_of_absent {P : Nat → Prop} {s s' : Machine σ} {virt phys : Nat}
    {user nx : Bool} {r : Except MapError Unit}
    (habs : tableRead s.mem s.pml4 (index4 virt) &&& Pte.present = 0)
    (hsupply : Supplies s.frames fun f => P f ∧ f * 4096 ≠ s.pml4)
    (h : s.mapPageImpl virt phys user nx = (r, s')) {u : Nat} (hu : u % 4096 = 0)
    (hroot : u ≠ s.pml4) (hP : ∀ f, P f → u ≠ f * 4096) (j : Fin 512) :
    tableRead s'.mem u j = tableRead s.mem u j := by
  have hrootal : s.pml4 % 4096 = 0 := and_addrMask_mod _
  rw [mapPageImpl_eq, descendAll] at h
  cases hd : descend user s.pml4 (index4 virt) s with
  | mk res s₁ =>
  simp only [hd] at h
  rcases descend_cases hd with ⟨hpres, -, -⟩ | ⟨-, rfl, rfl⟩ | ⟨f, frames, -, ha, rfl, rfl⟩
  · exact absurd habs hpres
  · obtain ⟨-, rfl⟩ := Prod.mk.inj h
    rfl
  obtain ⟨⟨hPf, hfroot⟩, hsup⟩ := hsupply.step ha
  have hblank := @tableRead_linked_self _ s frames user f s.pml4 (index4 virt) hrootal hfroot
  have hlinked := tableRead_linked (j := j) s frames user hrootal hu (hP f hPf)
    fun hc : u = s.pml4 ∧ j = index4 virt => hroot hc.1
  dsimp only at h
  cases hw : descendAll user [index3 virt, index2 virt] (f * 4096)
      (s.linked frames user f s.pml4 (index4 virt)) with
  | mk res₂ s₂ =>
  obtain ⟨fs, hung, hPfs⟩ := descendAll_of_blank hblank hsup hw
  have hsame := hung.same u j hu (hP f hPf) fun g hg => hP g (hPfs g hg).1
  simp only [hw] at h
  cases res₂ with
  | error e =>
    obtain ⟨-, rfl⟩ := Prod.mk.inj h
    exact hsame.trans hlinked
  | ok pt =>
    obtain ⟨-, rfl⟩ := Prod.mk.inj h
    obtain ⟨g, hg, rfl⟩ := hung.last pt rfl
    have hgne : u ≠ g * 4096 := by
      rcases List.mem_cons.mp hg with rfl | hg
      · exact hP g hPf
      · exact hP g (hPfs g hg).1
    have hleaf := entries_tableWrite_of_ne s₂.mem (leafEntry phys user nx) (by omega) hu
      fun hc : u = g * 4096 ∧ j = index1 virt => hgne hc.1
    exact (hleaf.trans hsame).trans hlinked

/-- A walk takes frames from the allocator and leaves the root where it is. -/
private theorem descendAll_takes {user : Bool} {q : List (Fin 512)} {t : Nat} {s s' : Machine σ}
    {r : Except MapError Nat} (h : descendAll user q t s = (r, s')) :
    s'.cr3 = s.cr3 ∧ ∃ fs, Takes fs s.frames s'.frames := by
  induction q generalizing t s with
  | nil =>
    obtain ⟨-, rfl⟩ := Prod.mk.inj h
    exact ⟨rfl, [], rfl⟩
  | cons i q ih =>
    rw [descendAll] at h
    cases hd : descend user t i s with
    | mk res s₁ =>
    simp only [hd] at h
    rcases descend_cases hd with ⟨-, rfl, rfl⟩ | ⟨-, rfl, rfl⟩ | ⟨f, frames, -, ha, rfl, rfl⟩
    · exact ih h
    · obtain ⟨-, rfl⟩ := Prod.mk.inj h
      exact ⟨rfl, [], rfl⟩
    · obtain ⟨hcr3, fs, htakes⟩ := ih h
      exact ⟨hcr3, f :: fs, frames, ha, htakes⟩

/-- So does a call. -/
theorem mapPageImpl_takes {s s' : Machine σ} {virt phys : Nat} {user nx : Bool}
    {r : Except MapError Unit} (h : s.mapPageImpl virt phys user nx = (r, s')) :
    s'.cr3 = s.cr3 ∧ ∃ fs, Takes fs s.frames s'.frames := by
  rw [mapPageImpl_eq] at h
  split at h
  next e s₁ hd =>
    obtain ⟨-, rfl⟩ := Prod.mk.inj h
    exact descendAll_takes hd
  next pt s₁ hd =>
    obtain ⟨-, rfl⟩ := Prod.mk.inj h
    have htakes := descendAll_takes hd
    exact htakes

end Machine

end LionOS.Paging
