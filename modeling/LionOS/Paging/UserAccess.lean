import LionOS.Paging.Access

/-!
# What ring 3 can reach

The processor lets ring 3 at a page when the user bit is set in every entry of the
walk to it. `map_page_impl` sets the bit in the leaf and in the tables it links, and
leaves an entry that is present as it is. So a user mapping takes effect exactly
when no entry that is already there stands in its way.
-/

namespace LionOS.Paging

open Lib Frames

/-- The entry is in use and lets ring 3 through. -/
def UserEntry (e : Nat) : Prop := e &&& Pte.present ≠ 0 ∧ e &&& Pte.user ≠ 0

instance (e : Nat) : Decidable (UserEntry e) := inferInstanceAs (Decidable (_ ∧ _))

namespace Machine

variable {σ : Type*}

/-- The check the processor makes for an access in ring 3: the user bit is set in the
entries of all levels, down to the leaf or a huge entry. -/
def UserAccessible (s : Machine σ) (virt : Nat) : Prop :=
  let pml4e := tableRead s.mem s.pml4 (index4 virt)
  UserEntry pml4e ∧
    let pdpte := tableRead s.mem (pml4e &&& addrMask) (index3 virt)
    UserEntry pdpte ∧ (pdpte &&& Pte.huge ≠ 0 ∨
      let pde := tableRead s.mem (pdpte &&& addrMask) (index2 virt)
      UserEntry pde ∧ (pde &&& Pte.huge ≠ 0 ∨
        UserEntry (tableRead s.mem (pde &&& addrMask) (index1 virt))))

instance (s : Machine σ) (virt : Nat) : Decidable (s.UserAccessible virt) :=
  inferInstanceAs (Decidable (_ ∧ _ ∧ (_ ∨ _ ∧ (_ ∨ _))))

/-- The walk along a path meets entry `e`. -/
def Meets (s : Machine σ) (q : List (Fin 512)) (e : Nat) : Prop :=
  format.Meets (entries s.mem) s.pml4 q e

/-- The indices of the intermediate tables of an address. -/
def innerPath (v : Nat) : List (Fin 512) := [index4 v, index3 v, index2 v]

/-- Below an entry that is present the walk goes on, unless the entry is huge. -/
private theorem forall_down_iff {d e : Nat} {X : Nat → Prop} (hp : e &&& Pte.present ≠ 0) :
    (∀ u, decode d e = .down u → X u) ↔ (d ≠ 0 ∧ e &&& Pte.huge ≠ 0) ∨ X (e &&& addrMask) := by
  unfold decode
  rw [if_neg hp]
  by_cases hstop : d ≠ 0 ∧ e &&& Pte.huge ≠ 0
  · simp [hstop]
  · simp only [hstop, if_false, Hop.down.injEq, forall_eq', false_or]

/-- A page is open to ring 3 when every entry of its walk is. -/
theorem userAccessible_iff {s : Machine σ} {v : Nat} :
    s.UserAccessible v ↔ ∀ e, s.Meets (path v) e → UserEntry e := by
  unfold Meets
  rw [← Format.allMet_iff]
  refine and_congr_right fun h₄ => (Iff.trans ?_ (forall_down_iff h₄.1).symm)
  simp only [ne_eq, not_true_eq_false, false_and, false_or]
  refine and_congr_right fun h₃ => (Iff.trans ?_ (forall_down_iff h₃.1).symm)
  refine or_congr (by simp) (and_congr_right fun h₂ => (Iff.trans ?_ (forall_down_iff h₂.1).symm))
  refine or_congr (by simp) ?_
  simp only [Format.AllMet, implies_true, and_true]
  rfl

/-- Every intermediate entry of the page that is present lets ring 3 through. -/
def PathOpen (s : Machine σ) (virt : Nat) : Prop :=
  ∀ e, s.Meets (innerPath virt) e → e &&& Pte.present ≠ 0 → e &&& Pte.user ≠ 0

/-- A walk whose lookup ends at an entry that is present meets only such entries. -/
theorem Meets.present {s : Machine σ} {q : List (Fin 512)} {e : Nat} (h : s.Meets q e)
    (hq : (s.lookup q).1 &&& Pte.present ≠ 0) : e &&& Pte.present ≠ 0 := by
  apply Format.Meets.of_lookup (P := fun e => e &&& Pte.present ≠ 0) h
  · simp [format]
  · intro d e he
    simp only [ne_eq, not_not] at he
    simp only [format, decode, he, if_true]
  · exact hq

theorem meets_concat {s : Machine σ} {q : List (Fin 512)} {t e : Nat} {i : Fin 512}
    (hq : format.node (entries s.mem) 0 s.pml4 q = some t) :
    s.Meets (q ++ [i]) e ↔ s.Meets q e ∨ tableRead s.mem t i = e := by
  unfold Meets
  rw [Format.meets_concat, hq]
  simp [entries]

theorem meets_concat_none {s : Machine σ} {q : List (Fin 512)} {e : Nat} {i : Fin 512}
    (hq : format.node (entries s.mem) 0 s.pml4 q = none) :
    s.Meets (q ++ [i]) e ↔ s.Meets q e := by
  unfold Meets
  rw [Format.meets_concat, hq]
  simp

/-- What the walk from `s` has done to the entries when it has come to table `t` at path
`p`. Walks that end at an entry that is present are as they were. For a user mapping, the
entries down to `t` let ring 3 through exactly when those that were present do. And
either nothing has changed so far, or `t` is new and blank. -/
structure Linked (user : Bool) (s s₁ : Machine σ) (p : List (Fin 512)) (t : Nat) : Prop where
  kept : ∀ q, q.length = 4 → (s.lookup q).1 &&& Pte.present ≠ 0 →
    ∀ e, s₁.Meets q e ↔ s.Meets q e
  users : user = true → ((∀ e, s₁.Meets p e → e &&& Pte.user ≠ 0) ↔
    ∀ e, s.Meets p e → e &&& Pte.present ≠ 0 → e &&& Pte.user ≠ 0)
  last : s₁ = s ∨ format.node (entries s.mem) 0 s.pml4 p = none ∧ ∀ j, tableRead s₁.mem t j = 0

theorem Linked.start (user : Bool) (s : Machine σ) : Linked user s s [] s.pml4 where
  kept _ _ _ _ := Iff.rfl
  users _ := by
    constructor
    · intro _ e he
      exact absurd he Format.not_meets_nil
    · intro _ e he
      exact absurd he Format.not_meets_nil
  last := Or.inl rfl

theorem linkEntry_user (t : Nat) : linkEntry t true &&& Pte.user ≠ 0 := by
  have hm : (t &&& addrMask) &&& Pte.user = 0 := by
    rw [Nat.and_assoc]
    exact Nat.and_zero t
  simp only [linkEntry, entryPointer, if_true, Nat.and_or_distrib_right, hm]
  decide

/-- A graft changes no entry of a walk that ends at an entry that is present. -/
theorem meets_linked {s₁ : Machine σ} {frames : σ} {user : Bool} {f t : Nat} {i : Fin 512}
    {p q : List (Fin 512)} (ht : s₁.Tree)
    (hg : format.Graft (entries s₁.mem) (entries (s₁.linked frames user f t i).mem) 3 s₁.pml4 p t i
      (f * 4096)) (habs : tableRead s₁.mem t i &&& Pte.present = 0) (hq : q.length = 4)
    (hpres : (s₁.lookup q).1 &&& Pte.present ≠ 0) (e : Nat) :
    (s₁.linked frames user f t i).Meets q e ↔ s₁.Meets q e := by
  have hnot : ¬ p ++ [i] <+: q := by
    intro hpre
    have hmeets : s₁.Meets q (tableRead s₁.mem t i) := ⟨p, i, t, hpre, hg.at_path, rfl⟩
    exact hmeets.present hpres habs
  exact Format.meets_congr (hg.entry_eq_of_prefix ht (by omega) hnot)

/-- After a graft the walk to the new table meets the new entry last. -/
theorem meets_linked_self {s₁ : Machine σ} {frames : σ} {user : Bool} {f t : Nat} {i : Fin 512}
    {p : List (Fin 512)} (ht : s₁.Tree)
    (hg : format.Graft (entries s₁.mem) (entries (s₁.linked frames user f t i).mem) 3 s₁.pml4 p t i
      (f * 4096)) (e : Nat) :
    (s₁.linked frames user f t i).Meets (p ++ [i]) e ↔
      s₁.Meets p e ∨ linkEntry (f * 4096) user = e := by
  have hnot : ¬ p ++ [i] <+: p := fun h => by simpa using h.length_le
  have hlt := hg.length_lt
  have hnode : format.node (entries (s₁.linked frames user f t i).mem) 0
      (s₁.linked frames user f t i).pml4 p = some t :=
    (hg.node_eq ht hg.length_le hnot).trans hg.at_path
  have hread : tableRead (s₁.linked frames user f t i).mem t i = linkEntry (f * 4096) user :=
    entries_tableWrite_self _ _ _ (linkEntry_lt ..)
  rw [meets_concat hnode, hread]
  apply or_congr_left
  exact Format.meets_congr (hg.entry_eq_of_prefix ht (by omega) hnot)

variable [FrameSource σ]

/-- The walk goes down one level. -/
theorem Linked.step {P : Nat → Prop} {s s₁ s₂ : Machine σ} {p : List (Fin 512)} {t u : Nat}
    {i : Fin 512} {user : Bool} (hl : Linked user s s₁ p t) (hd : Descended P s s₁ p t)
    (hlt : p.length < 3) (h : descend user t i s₁ = (.ok u, s₂)) :
    Linked user s s₂ (p ++ [i]) u := by
  rcases descend_cases h with ⟨hpres, -, rfl⟩ | ⟨-, he, -⟩ | ⟨f, frames, habs, ha, hu, rfl⟩
  · -- The entry is present, so the table is not new.
    have hsame : s₂ = s := by
      rcases hl.last with hsame | ⟨-, hblank⟩
      · exact hsame
      · exact absurd (hblank i) fun h0 => hpres (by rw [h0, Nat.zero_and])
    subst hsame
    refine ⟨fun _ _ _ _ => Iff.rfl, fun huser => ?_, Or.inl rfl⟩
    simp only [meets_concat hd.node, or_imp, forall_and, forall_eq']
    exact and_congr (hl.users huser) ⟨fun h _ => h, fun h => h hpres⟩
  · exact absurd he (by simp)
  · obtain rfl := Except.ok.inj hu
    obtain ⟨⟨hf, hnew, -⟩, -⟩ := hd.sound.supply.step ha
    have hg : format.Graft (entries s₁.mem) (entries (s₁.linked frames user f t i).mem) 3 s₁.pml4 p
        t i (f * 4096) := graft_of_alloc user hd.node hlt habs hf hnew
    have htree := hd.sound.tree
    refine ⟨fun q hq hpres e => ?_, fun huser => ?_, Or.inr ⟨?_, hg.blank⟩⟩
    · have hpres' : (s₁.lookup q).1 &&& Pte.present ≠ 0 := by rwa [hd.lookups q hq]
      rw [meets_linked htree hg habs hq hpres', hl.kept q hq hpres]
    · subst huser
      simp only [meets_linked_self htree hg, or_imp, forall_and, forall_eq', linkEntry_user, ne_eq,
        not_false_eq_true, and_true]
      refine (hl.users rfl).trans ?_
      rcases hl.last with rfl | ⟨hnone, -⟩
      · simp only [meets_concat hd.node, or_imp, forall_and, forall_eq', habs, ne_eq,
          not_true_eq_false, false_imp_iff, and_true]
      · simp only [meets_concat_none hnone, ne_eq]
    · rcases hl.last with rfl | ⟨hnone, -⟩
      · have hold := hg.node_old (r := [])
        rwa [List.append_nil] at hold
      · rw [Format.node_concat, hnone, Option.bind_none]

/-! ## What one mapping opens -/

/-- A successful mapping has come to the last table and written the leaf there. -/
theorem mapPageImpl_linked {P : Nat → Prop} {s s' : Machine σ} {virt phys : Nat} {user nx : Bool}
    (hs : s.Sound P) (hopen : (s.lookup (path virt)).2 = false)
    (h : s.mapPageImpl virt phys user nx = (.ok (), s')) :
    ∃ s₃ pt, Descended P s s₃ (innerPath virt) pt ∧ Linked user s s₃ (innerPath virt) pt ∧
      s' = s₃.setMem (tableWrite s₃.mem pt (index1 virt) (leafEntry phys user nx)) := by
  unfold mapPageImpl at h
  split at h
  next => exact absurd h (by simp)
  next pdpt s₁ h₄ =>
  split at h
  next => exact absurd h (by simp)
  next pd s₂ h₃ =>
  split at h
  next => exact absurd h (by simp)
  next pt s₃ h₂ =>
  have hd₀ := Descended.start hs
  have hd₁ := (hd₀.step (by simp) rfl hopen h₄).2.2.2 pdpt rfl
  have hd₂ := (hd₁.step (by simp) rfl hopen h₃).2.2.2 pd rfl
  have hd₃ := (hd₂.step (r := [index1 virt]) (by simp) rfl hopen h₂).2.2.2 pt rfl
  have hl₁ := (Linked.start user s).step hd₀ (by simp) h₄
  have hl₂ := hl₁.step hd₁ (by simp) h₃
  have hl₃ := hl₂.step hd₂ (by simp) h₂
  exact ⟨s₃, pt, hd₃, hl₃, (Prod.mk.inj h).2.symm⟩

omit [FrameSource σ] in
/-- Ring 3 can reach mapped pages only. -/
theorem UserAccessible.present {s : Machine σ} {v : Nat} (h : s.UserAccessible v) :
    s.translate v &&& Pte.present ≠ 0 := by
  obtain ⟨h₄, h₃, h⟩ := h
  simp only [translate, h₄.1, h₃.1, if_false]
  rcases h with hh₃ | ⟨h₂, h⟩
  · rw [if_pos hh₃]
    exact h₃.1
  split
  · exact h₃.1
  simp only [h₂.1, if_false]
  rcases h with hh₂ | h₁
  · rw [if_pos hh₂]
    exact h₂.1
  split
  · exact h₂.1
  · exact h₁.1

omit [FrameSource σ] in
/-- The flags of a leaf entry do not depend on the frame. -/
theorem leafEntry_and (phys : Nat) (user nx : Bool) {mask : Nat} (hmask : addrMask &&& mask = 0) :
    leafEntry phys user nx &&& mask = leafEntry 0 user nx &&& mask := by
  have hphys : (phys &&& addrMask) &&& mask = 0 := by rw [Nat.and_assoc, hmask, Nat.and_zero]
  cases user <;> cases nx <;>
    simp only [leafEntry, entryPage, if_true, Bool.false_eq_true, if_false,
      Nat.and_or_distrib_right, hphys, Nat.zero_and]

omit [FrameSource σ] in
theorem leafEntry_user (phys : Nat) (user nx : Bool) :
    leafEntry phys user nx &&& Pte.user ≠ 0 ↔ user = true := by
  rw [leafEntry_and phys user nx (by decide)]
  cases user <;> cases nx <;> decide

omit [FrameSource σ] in
theorem leafEntry_nx (phys : Nat) (user nx : Bool) :
    leafEntry phys user nx &&& Pte.nx ≠ 0 ↔ nx = true := by
  rw [leafEntry_and phys user nx (by decide)]
  cases user <;> cases nx <;> decide

/-- A mapping opens and closes no other page, whether or not its own was mapped. -/
theorem userAccessible_elsewhere {P : Nat → Prop} {s s' : Machine σ} {virt phys v : Nat}
    {user nx : Bool} (hs : s.Sound P) (hopen : (s.lookup (path virt)).2 = false)
    (h : s.mapPageImpl virt phys user nx = (.ok (), s')) (hv : path v ≠ path virt) :
    s'.UserAccessible v ↔ s.UserAccessible v := by
  obtain ⟨s₃, pt, hd, hl, rfl⟩ := mapPageImpl_linked hs hopen h
  obtain ⟨-, -, ⟨⟨e, he⟩, -⟩ | ⟨-, -, hother⟩⟩ := mapPageImpl_spec hs hopen h
  · exact absurd he (by simp)
  have hsame := hother (path v) rfl hv
  by_cases hpres : (s.lookup (path v)).1 &&& Pte.present ≠ 0
  · have hmeets : ∀ e, (s₃.setMem (tableWrite s₃.mem pt (index1 virt)
        (leafEntry phys user nx))).Meets (path v) e ↔ s.Meets (path v) e := by
      intro e
      rw [← hl.kept _ rfl hpres]
      have hu := hd.update rfl (index1 virt) (leafEntry phys user nx)
      apply Format.meets_congr
      apply hu.entry_eq_of_prefix hd.sound.tree (by simp [path])
      intro hpre
      exact hv (hpre.eq_of_length rfl).symm
    simp only [userAccessible_iff, hmeets]
  · have hold : ¬ s.UserAccessible v := fun ha => hpres (by rw [← translate_eq]; exact ha.present)
    constructor
    · intro ha
      have := ha.present
      rw [translate_eq, hsame] at this
      exact absurd this hpres
    · exact fun ha => absurd ha hold

section

variable {P : Nat → Prop} {s s' : Machine σ} {virt phys v : Nat} {user nx : Bool} (hs : s.Sound P)
  (hunmapped : s.translate virt &&& Pte.present = 0)
  (h : s.mapPageImpl virt phys user nx = (.ok (), s'))

include hs hunmapped h

/-- A mapping opens and closes no other page. -/
theorem userAccessible_other (hv : path v ≠ path virt) :
    s'.UserAccessible v ↔ s.UserAccessible v :=
  userAccessible_elsewhere hs (not_stopped_of_unmapped hunmapped) h hv

/-- A mapping opens its page exactly when it is a user mapping and every entry on the way
that was present is open. -/
theorem userAccessible_self (hv : path v = path virt) :
    s'.UserAccessible v ↔ user = true ∧ s.PathOpen virt := by
  have hopen := not_stopped_of_unmapped hunmapped
  obtain ⟨s₃, pt, hd, hl, rfl⟩ := mapPageImpl_linked hs hopen h
  obtain ⟨-, -, ⟨⟨e, he⟩, -⟩ | ⟨-, hself, -⟩⟩ := mapPageImpl_spec hs hopen h
  · exact absurd he (by simp)
  have hu := hd.update rfl (index1 virt) (leafEntry phys user nx)
  have hpath : path virt = innerPath virt ++ [index1 virt] := rfl
  generalize hs' : s₃.setMem (tableWrite s₃.mem pt (index1 virt) (leafEntry phys user nx)) = s'
    at h hself ⊢
  have hnode : format.node (entries s'.mem) 0 s'.pml4 (innerPath virt) = some pt := by
    rw [← hs']
    exact (hu.node_eq_of_last hd.sound.tree rfl le_rfl).trans hd.node
  have hread : tableRead s'.mem pt (index1 virt) = leafEntry phys user nx := by
    rw [← hs']
    exact entries_tableWrite_self _ _ _ (leafEntry_lt ..)
  have hinner : ∀ e, s'.Meets (innerPath virt) e ↔ s₃.Meets (innerPath virt) e := by
    intro e
    rw [← hs']
    apply Format.meets_congr
    exact hu.entry_eq_of_prefix hd.sound.tree (by simp [innerPath])
      (Format.not_prefix_of_last rfl le_rfl)
  have hpresent : ∀ e, s'.Meets (path virt) e → e &&& Pte.present ≠ 0 := by
    intro e he
    apply he.present
    rw [hself]
    exact leafEntry_present phys user nx
  have hbits : (∀ e, s'.Meets (path virt) e → UserEntry e) ↔
      ∀ e, s'.Meets (path virt) e → e &&& Pte.user ≠ 0 :=
    ⟨fun ha e he => (ha e he).2, fun ha e he => ⟨hpresent e he, ha e he⟩⟩
  rw [userAccessible_iff, hv, hbits, hpath]
  simp only [meets_concat hnode, hread, hinner, or_imp, forall_and, forall_eq', leafEntry_user]
  rw [and_comm]
  exact and_congr_right hl.users

end

end Machine

/-! ## A run of mappings -/

/-- The three calls that map a page. -/
inductive Kind where
  | page
  | userPage
  | userData
  deriving DecidableEq, Repr

/-- A call and its arguments. -/
structure Request where
  kind : Kind
  virt : Nat
  phys : Nat
  deriving DecidableEq, Repr

namespace Machine

variable {σ : Type*} [FrameSource σ]

/-- Make the call. -/
def serve (s : Machine σ) (r : Request) : Except MapError Unit × Machine σ :=
  match r.kind with
  | .page => s.mapPage r.virt r.phys
  | .userPage => s.mapUserPage r.virt r.phys
  | .userData => s.mapUserData r.virt r.phys

theorem serve_eq (s : Machine σ) (r : Request) :
    s.serve r = s.mapPageImpl r.virt r.phys (r.kind != .page) (r.kind == .userData) := by
  unfold serve
  cases r.kind with
  | page => rfl
  | userPage => rfl
  | userData => rfl

/-- The calls succeed one after another from `s` to the last machine, each on a page that is
not mapped when it is made. -/
inductive Served (s : Machine σ) : List Request → Machine σ → Prop
  | nil : Served s [] s
  | snoc {rs : List Request} {r : Request} {s₁ s₂ : Machine σ} (h : Served s rs s₁)
      (hvirt : Canonical r.virt) (hunmapped : s₁.translate r.virt &&& Pte.present = 0)
      (hok : s₁.serve r = (.ok (), s₂)) : Served s (rs ++ [r]) s₂

/-- Ring 3 can reach exactly the pages mapped for it, and exactly the data pages mapped for
it cannot be executed. -/
structure AccessExact (rs : List Request) (s : Machine σ) : Prop where
  access : ∀ v, Canonical v →
    (s.UserAccessible v ↔ ∃ r ∈ rs, r.kind ≠ .page ∧ v / 4096 = r.virt / 4096)
  nx : ∀ r ∈ rs, (s.translate r.virt &&& Pte.nx ≠ 0 ↔ r.kind = .userData)

/-- Calls from one machine lead to one machine. -/
theorem Served.unique {s s₁ s₂ : Machine σ} {rs : List Request} (h₁ : Served s rs s₁)
    (h₂ : Served s rs s₂) : s₁ = s₂ := by
  induction h₁ generalizing s₂ with
  | nil =>
    generalize hrs : ([] : List Request) = rs at h₂
    cases h₂ with
    | nil => rfl
    | snoc => simp at hrs
  | @snoc rs r s₁ s₁' h hvirt hunmapped hok ih =>
    generalize hrs : rs ++ [r] = rs' at h₂
    cases h₂ with
    | nil => simp at hrs
    | @snoc rs₂ r₂ t t' h' _ _ hok' =>
      obtain ⟨rfl, hr⟩ := List.append_inj' hrs rfl
      obtain rfl := List.singleton_inj.mp hr
      obtain rfl := ih h'
      exact (Prod.mk.inj (hok.symm.trans hok')).2

section

variable {P : Nat → Prop} {s s' : Machine σ} {rs : List Request}

/-- The tables stay sound and every page mapped so far has its leaf. -/
theorem Served.leaf (h : Served s rs s') (hs : s.Sound P) :
    s'.Sound P ∧ ∀ r ∈ rs, Canonical r.virt ∧
      s'.translate r.virt = leafEntry r.phys (r.kind != .page) (r.kind == .userData) := by
  induction h with
  | nil => exact ⟨hs, by simp⟩
  | @snoc rs r s₁ s₂ h hvirt hunmapped hok ih =>
    obtain ⟨hs₁, hleaf⟩ := ih
    rw [serve_eq] at hok
    obtain ⟨hs₂, -, ⟨⟨e, he⟩, -⟩ | ⟨-, hself, hother⟩⟩ :=
      mapPageImpl_spec hs₁ (not_stopped_of_unmapped hunmapped) hok
    · exact absurd he (by simp)
    refine ⟨hs₂, fun q hq => ?_⟩
    rcases List.mem_append.mp hq with hq | hq
    · obtain ⟨hcan, htrans⟩ := hleaf q hq
      refine ⟨hcan, ?_⟩
      have hne : path q.virt ≠ path r.virt := by
        intro heq
        rw [translate_eq, ← heq, ← translate_eq, htrans] at hunmapped
        exact leafEntry_present _ _ _ hunmapped
      rw [translate_eq, hother _ rfl hne, ← translate_eq, htrans]
    · rw [List.mem_singleton.mp hq]
      exact ⟨hvirt, by rw [translate_eq, hself]⟩

/-- One more call keeps the access exact when it maps for the kernel or meets only open
entries. -/
theorem access_snoc {r : Request} {s₁ s₂ : Machine σ} (hs₁ : s₁.Sound P)
    (hmapped : ∀ q ∈ rs, Canonical q.virt ∧ s₁.translate q.virt &&& Pte.present ≠ 0)
    (hvirt : Canonical r.virt) (hunmapped : s₁.translate r.virt &&& Pte.present = 0)
    (hok : s₁.serve r = (.ok (), s₂)) :
    (∀ v, Canonical v →
      (s₂.UserAccessible v ↔ ∃ q ∈ rs ++ [r], q.kind ≠ .page ∧ v / 4096 = q.virt / 4096)) ↔
      (∀ v, Canonical v →
        (s₁.UserAccessible v ↔ ∃ q ∈ rs, q.kind ≠ .page ∧ v / 4096 = q.virt / 4096)) ∧
        (r.kind ≠ .page → s₁.PathOpen r.virt) := by
  rw [serve_eq] at hok
  have hother := fun v => @userAccessible_other _ _ _ _ _ _ _ v _ _ hs₁ hunmapped hok
  have hself := fun v => @userAccessible_self _ _ _ _ _ _ _ v _ _ hs₁ hunmapped hok
  simp only [bne_iff_ne] at hself
  -- No earlier call was for the same page.
  have hfresh : ∀ v, v / 4096 = r.virt / 4096 →
      ¬ ∃ q ∈ rs, q.kind ≠ .page ∧ v / 4096 = q.virt / 4096 := by
    rintro v hv ⟨q, hq, -, hpage⟩
    have hpath : path q.virt = path r.virt := path_eq_of_page_eq (hpage.symm.trans hv)
    apply (hmapped q hq).2
    rw [translate_eq, hpath, ← translate_eq, hunmapped]
  have hclosed : ∀ v, v / 4096 = r.virt / 4096 → ¬ s₁.UserAccessible v := by
    intro v hv ha
    apply ha.present
    rw [translate_eq, path_eq_of_page_eq hv, ← translate_eq, hunmapped]
  have hsplit : ∀ v, (∃ q ∈ rs ++ [r], q.kind ≠ .page ∧ v / 4096 = q.virt / 4096) ↔
      (∃ q ∈ rs, q.kind ≠ .page ∧ v / 4096 = q.virt / 4096) ∨
        r.kind ≠ .page ∧ v / 4096 = r.virt / 4096 := by
    intro v
    simp only [List.mem_append, List.mem_singleton, or_and_right, exists_or, exists_eq_left]
  constructor
  · intro h
    refine ⟨fun v hv => ?_, fun hk => ?_⟩
    · by_cases hpage : v / 4096 = r.virt / 4096
      · exact iff_of_false (hclosed v hpage) (hfresh v hpage)
      · rw [← hother v fun hp => hpage (page_eq_of_path_eq hv hvirt hp), h v hv, hsplit v]
        exact or_iff_left fun hr => hpage hr.2
    · have hr := (h r.virt hvirt).mpr ((hsplit r.virt).mpr (Or.inr ⟨hk, rfl⟩))
      exact ((hself r.virt rfl).mp hr).2
  · rintro ⟨h, hopen⟩ v hv
    rw [hsplit v]
    by_cases hpage : v / 4096 = r.virt / 4096
    · rw [hself v (path_eq_of_page_eq hpage), or_iff_right (hfresh v hpage)]
      exact ⟨fun hr => ⟨hr.1, hpage⟩, fun hr => ⟨hr.1, hopen hr.1⟩⟩
    · rw [hother v fun hp => hpage (page_eq_of_path_eq hv hvirt hp), h v hv]
      exact (or_iff_left fun hr => hpage hr.2).symm

/-- **User mappings open exactly what they find open.** Over tables that form a tree, with
an allocator of new frames, from a machine where ring 3 can reach no page: after any run of
successful calls on pages that were not mapped, ring 3 can reach exactly the pages mapped
for it, and exactly its data pages are not executable, if and only if at each user mapping
every intermediate entry that was already present let ring 3 through. -/
theorem accessExact_iff_open (htree : s.Tree)
    (hsupply : Supplies s.frames fun f => f < 2 ^ 40 ∧ ¬ s.Reachable (f * 4096))
    (hclosed : ∀ v, Canonical v → ¬ s.UserAccessible v) (h : Served s rs s') :
    AccessExact rs s' ↔
      ∀ before r s₁, before ++ [r] <+: rs → Served s before s₁ → r.kind ≠ .page →
        s₁.PathOpen r.virt := by
  have hs := Sound.of_tree htree hsupply
  have hnx : ∀ r ∈ rs, (s'.translate r.virt &&& Pte.nx ≠ 0 ↔ r.kind = .userData) := by
    intro r hr
    rw [((h.leaf hs).2 r hr).2, leafEntry_nx, beq_iff_eq]
  have haccess : AccessExact rs s' ↔ ∀ v, Canonical v →
      (s'.UserAccessible v ↔ ∃ r ∈ rs, r.kind ≠ .page ∧ v / 4096 = r.virt / 4096) :=
    ⟨fun h => h.access, fun h => ⟨h, hnx⟩⟩
  rw [haccess]
  clear haccess hnx
  induction h with
  | nil =>
    constructor
    · intro _ before r s₁ hp
      simpa using hp.length_le
    · intro _ v hv
      simpa using hclosed v hv
  | @snoc rs r s₁ s₂ h hvirt hunmapped hok ih =>
    obtain ⟨hs₁, hleaf⟩ := h.leaf hs
    have hmapped : ∀ q ∈ rs, Canonical q.virt ∧ s₁.translate q.virt &&& Pte.present ≠ 0 := by
      intro q hq
      obtain ⟨hcan, htrans⟩ := hleaf q hq
      exact ⟨hcan, by rw [htrans]; exact leafEntry_present _ _ _⟩
    refine (access_snoc hs₁ hmapped hvirt hunmapped hok).trans ((and_congr_left' ih).trans ?_)
    constructor
    · rintro ⟨hrest, hlast⟩ before r' t hp ht hk
      rcases List.prefix_concat_iff.mp hp with heq | hp
      · obtain ⟨rfl, hr⟩ := List.append_inj' heq rfl
        obtain rfl := List.singleton_inj.mp hr
        obtain rfl := ht.unique h
        exact hlast hk
      · exact hrest before r' t hp ht hk
    · intro hall
      refine ⟨fun before r' t hp => hall before r' t (hp.trans (List.prefix_append ..)), ?_⟩
      exact hall rs r s₁ (List.prefix_refl _) h

end

end Machine

/-- A blank machine has no entry that is present. -/
private theorem pathOpen_blankMachine (v : Nat) : blankMachine.PathOpen v := by
  rintro e ⟨p, j, u, -, -, rfl⟩ hp
  have hz : entries blankMachine.mem u j = 0 := read64_zero _
  rw [hz, Nat.zero_and] at hp
  exact absurd rfl hp

/-- In a blank machine a user page gets tables of its own, and ring 3 reaches it. -/
theorem accessExact_blank :
    ∃ s', blankMachine.Served [⟨.userPage, 0x400000, 0x8000⟩] s' ∧
      Machine.AccessExact [⟨.userPage, 0x400000, 0x8000⟩] s' := by
  have hok : (blankMachine.serve ⟨.userPage, 0x400000, 0x8000⟩).1 = .ok () := by decide +kernel
  have hclosed : ∀ v, Canonical v → ¬ blankMachine.UserAccessible v := by
    intro v _ h
    apply h.present
    rw [translate_blankMachine, Nat.zero_and]
  have hunmapped : blankMachine.translate 0x400000 &&& Pte.present = 0 := by
    rw [translate_blankMachine, Nat.zero_and]
  have hrun := Machine.Served.snoc (r := ⟨.userPage, 0x400000, 0x8000⟩) .nil (by decide) hunmapped
    (Prod.fst_eq_iff.mp hok)
  refine ⟨_, hrun, (Machine.accessExact_iff_open blankMachine_tree blankMachine_supplies hclosed
    hrun).mpr ?_⟩
  intro before r s₁ hp hs₁ _
  cases before with
  | nil =>
    obtain rfl := hs₁.unique .nil
    exact pathOpen_blankMachine _
  | cons q before => simpa using hp.length_le

/-- A machine with kernel tables for the first 2 MiB, in frames 1 to 4. -/
def kernelMachine : Machine FrameAllocator where
  mem := fun x =>
    if 2 ≤ x % 4096 then 0
    else if x = 0x1000 ∨ x = 0x2000 ∨ x = 0x3000 then 0x03
    else if x = 0x1001 then 0x20
    else if x = 0x2001 then 0x30
    else if x = 0x3001 then 0x40
    else 0
  frames := FrameAllocator.empty
  cr3 := 0x1000

/-- A user page mapped among kernel tables stays out of reach of ring 3. -/
theorem user_page_among_kernel_tables :
    (∀ v, ¬ kernelMachine.UserAccessible v) ∧
      ∃ s', kernelMachine.Served [⟨.userPage, 0x5000, 0x8000⟩] s' ∧
        ¬ s'.UserAccessible 0x5000 ∧ ¬ Machine.AccessExact [⟨.userPage, 0x5000, 0x8000⟩] s' := by
  have hok : (kernelMachine.serve ⟨.userPage, 0x5000, 0x8000⟩).1 = .ok () := by decide
  have hrun := Machine.Served.snoc (r := ⟨.userPage, 0x5000, 0x8000⟩) .nil (by decide)
    (by decide) (Prod.fst_eq_iff.mp hok)
  have hout : ¬ (kernelMachine.serve ⟨.userPage, 0x5000, 0x8000⟩).2.UserAccessible 0x5000 := by
    decide
  have hroot : ∀ i, ¬ UserEntry (tableRead kernelMachine.mem kernelMachine.pml4 i) := by
    decide +kernel
  refine ⟨fun v h => hroot _ h.1, _, hrun, hout, fun h => hout ?_⟩
  apply (h.access 0x5000 (by decide)).mpr
  exact ⟨⟨.userPage, 0x5000, 0x8000⟩, by decide, by decide, rfl⟩

end LionOS.Paging
